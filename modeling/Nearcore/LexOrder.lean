import Mathlib.Data.List.Lex
import Mathlib.Tactic

/-!
# Lexicographic order of lists

Two concatenations whose first parts have one length compare by their first parts, and by their
second parts where the first parts agree.  Lists of digits of one length compare as the numbers
they spell, most significant digit first.
-/

namespace List

variable {α : Type*} [LinearOrder α]

theorem append_lt_append_iff_of_length_eq {a a' s s' : List α} (h : a.length = a'.length) :
    a ++ s < a' ++ s' ↔ a < a' ∨ (a = a' ∧ s < s') := by
  induction a generalizing a' with
  | nil =>
      rw [List.length_nil, eq_comm, List.length_eq_zero_iff] at h
      subst h
      simp
  | cons x a ih =>
      cases a' with
      | nil => simp at h
      | cons x' a' =>
          simp only [List.length_cons, add_left_inj] at h
          simp only [List.cons_append, List.cons_lt_cons_iff, ih h, List.cons.injEq]
          constructor
          · rintro (hlt | ⟨rfl, hlt | ⟨rfl, hs⟩⟩)
            · exact .inl (.inl hlt)
            · exact .inl (.inr ⟨rfl, hlt⟩)
            · exact .inr ⟨⟨rfl, rfl⟩, hs⟩
          · rintro ((hlt | ⟨rfl, hlt⟩) | ⟨⟨rfl, rfl⟩, hs⟩)
            · exact .inl hlt
            · exact .inr ⟨rfl, .inl hlt⟩
            · exact .inr ⟨rfl, .inr ⟨rfl, hs⟩⟩

theorem append_lt_append_left_iff {a s s' : List α} : a ++ s < a ++ s' ↔ s < s' := by
  rw [append_lt_append_iff_of_length_eq rfl]
  simp

theorem append_le_append_left_iff {a s s' : List α} : a ++ s ≤ a ++ s' ↔ s ≤ s' := by
  rw [← not_lt, ← not_lt, append_lt_append_left_iff]

/-- A concatenation lies between two others with first parts `a` exactly when its own first
part is `a` and its second part lies between theirs. -/
theorem append_le_and_lt_append_iff {a s s' t d : List α} (h : t.length = a.length) :
    a ++ s ≤ t ++ d ∧ t ++ d < a ++ s' ↔ t = a ∧ s ≤ d ∧ d < s' := by
  rw [← not_lt, append_lt_append_iff_of_length_eq h, append_lt_append_iff_of_length_eq h]
  constructor
  · rintro ⟨hlo, hlt | ⟨rfl, hd⟩⟩
    · exact absurd (.inl hlt) hlo
    · exact ⟨rfl, not_lt.mp fun hs => hlo (.inr ⟨rfl, hs⟩), hd⟩
  · rintro ⟨rfl, hs, hd⟩
    refine ⟨?_, .inr ⟨rfl, hd⟩⟩
    rintro (hlt | ⟨-, hlt⟩)
    · exact lt_irrefl _ hlt
    · exact absurd hlt (not_lt.mpr hs)

theorem lt_iff_take_lt {l x : List α} (hlen : l.length ≤ x.length) :
    x < l ↔ x.take l.length < l := by
  have htake : (x.take l.length).length = l.length := by simp [hlen]
  have hsplit := @append_lt_append_iff_of_length_eq _ _ (x.take l.length) l (x.drop l.length) []
    htake
  rw [List.take_append_drop, List.append_nil] at hsplit
  rw [hsplit]
  simp

theorem le_iff_le_take {l x : List α} (hlen : l.length ≤ x.length) :
    l ≤ x ↔ l ≤ x.take l.length := by
  rw [← not_lt, ← not_lt, lt_iff_take_lt hlen]

section BigEndian

variable (base : ℕ) (digit : α → ℕ)

/-- The number a list of digits spells, most significant first. -/
def bigEndianValue : List α → ℕ
  | [] => 0
  | x :: l => digit x * base ^ l.length + bigEndianValue l

variable {base digit}

omit [LinearOrder α] in
theorem bigEndianValue_lt (hdigit : ∀ x, digit x < base) (l : List α) :
    bigEndianValue base digit l < base ^ l.length := by
  induction l with
  | nil => simp [bigEndianValue]
  | cons x l ih =>
      rw [bigEndianValue, List.length_cons, pow_succ]
      calc digit x * base ^ l.length + bigEndianValue base digit l
          < digit x * base ^ l.length + base ^ l.length := by omega
        _ = (digit x + 1) * base ^ l.length := by ring
        _ ≤ base * base ^ l.length := Nat.mul_le_mul_right _ (hdigit x)
        _ = base ^ l.length * base := Nat.mul_comm _ _

omit [LinearOrder α] in
theorem bigEndianValue_append (l l' : List α) :
    bigEndianValue base digit (l ++ l') =
      bigEndianValue base digit l * base ^ l'.length + bigEndianValue base digit l' := by
  induction l with
  | nil => simp [bigEndianValue]
  | cons x l ih =>
      simp only [List.cons_append, bigEndianValue, List.length_append, ih, pow_add]
      ring

/-- Lists of one length compare as the numbers they spell. -/
theorem lt_iff_bigEndianValue_lt (hmono : StrictMono digit) (hdigit : ∀ x, digit x < base)
    {l l' : List α} (h : l.length = l'.length) :
    l < l' ↔ bigEndianValue base digit l < bigEndianValue base digit l' := by
  induction l generalizing l' with
  | nil =>
      rw [List.length_nil, eq_comm, List.length_eq_zero_iff] at h
      subst h
      simp [bigEndianValue]
  | cons x l ih =>
      cases l' with
      | nil => simp at h
      | cons x' l' =>
          simp only [List.length_cons, add_left_inj] at h
          have hv := bigEndianValue_lt hdigit l
          have hv' := bigEndianValue_lt hdigit l'
          rw [List.cons_lt_cons_iff, ih h, bigEndianValue, bigEndianValue, ← h]
          rw [← h] at hv'
          -- the leading digits decide unless they agree
          rcases lt_trichotomy x x' with hlt | rfl | hgt
          · have hd : digit x * base ^ l.length + base ^ l.length ≤ digit x' * base ^ l.length := by
              rw [← Nat.succ_mul]
              exact Nat.mul_le_mul_right _ (hmono hlt)
            simp only [hlt, true_or, true_iff]
            omega
          · simp
          · have hd : digit x' * base ^ l.length + base ^ l.length ≤ digit x * base ^ l.length := by
              rw [← Nat.succ_mul]
              exact Nat.mul_le_mul_right _ (hmono hgt)
            simp only [not_lt.mpr hgt.le, ne_of_gt hgt, false_and, or_self, false_iff, not_lt]
            omega

end BigEndian

end List
