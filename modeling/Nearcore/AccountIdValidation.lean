import Nearcore.Primitives

/-!
# Validation of account ids

`AccountId::validate` (`core/account-id/src/lib.rs`) checks the length of a string in bytes,
then scans its chars once, in the state "the last char was a separator", which it starts in:
a char outside `[a-z0-9._-]` is an `InvalidChar`, a separator after a separator (or first)
a `RedundantSeparator`, and so is a separator at the end.

The documented grammar is `Runs`: one or more runs of `[a-z0-9]` separated by single
separators, which is what the regular expression
`^(([a-z\d]+[-_])*[a-z\d]+\.)*([a-z\d]+[-_])*[a-z\d]+$` matches.  The scanner accepts
exactly the strings of the grammar with a length in range, and an error names the first
char at which the string stops being a prefix of the grammar, or its last char when only
the end is missing (`validate_spec`).

The proof follows the scanner's state: `Accepts` is the grammar from either state (after a
separator, a run must follow; after a char of a run, the string may also end or go on with
a separator), and each char moves both the scanner and the grammar to the same next state
(`accepts_cons`, `acceptsPrefix_cons`).
-/

namespace Nearcore.AccountId

/-- `ParseErrorKind`. -/
inductive ParseErrorKind
  | tooLong
  | tooShort
  | redundantSeparator
  | invalidChar
  deriving DecidableEq, Repr

/-- `ParseAccountError`: the kind, and the index and char a char error is at. -/
structure ParseAccountError where
  kind : ParseErrorKind
  char : Option (ℕ × Char)
  deriving DecidableEq, Repr

/-- `AccountId::MIN_LEN`. -/
def minLen : ℕ := 2

/-- `AccountId::MAX_LEN`. -/
def maxLen : ℕ := 64

/-- The `match c` of the loop: `'a'..='z' | '0'..='9'` is no separator, `'-' | '_' | '.'` is
one, and any other char is an error. -/
def currentCharIsSeparator (c : Char) : Option Bool :=
  if 'a' ≤ c ∧ c ≤ 'z' ∨ '0' ≤ c ∧ c ≤ '9' then some false
  else if c = '-' ∨ c = '_' ∨ c = '.' then some true
  else none

/-- The loop `for (i, c) in account_id.chars().enumerate()` from the char at index `i` on,
in the state `last_char_is_separator` with `this` the last char seen, and the check after
it. -/
def validateFrom : ℕ → Bool → Option (ℕ × Char) → List Char → Except ParseAccountError Unit
  | _, lastCharIsSeparator, this, [] =>
      if lastCharIsSeparator then .error ⟨.redundantSeparator, this⟩ else .ok ()
  | i, lastCharIsSeparator, _, c :: rest =>
      match currentCharIsSeparator c with
      | none => .error ⟨.invalidChar, some (i, c)⟩
      | some separator =>
          if separator && lastCharIsSeparator then .error ⟨.redundantSeparator, some (i, c)⟩
          else validateFrom (i + 1) separator (some (i, c)) rest

/-- `AccountId::validate`. -/
def validate (accountId : String) : Except ParseAccountError Unit :=
  if accountId.utf8ByteSize < minLen then .error ⟨.tooShort, none⟩
  else if accountId.utf8ByteSize > maxLen then .error ⟨.tooLong, none⟩
  else validateFrom 0 true none accountId.toList

/-! ## The grammar -/

/-- `[a-z0-9]`. -/
def IsIdChar (c : Char) : Prop := 'a' ≤ c ∧ c ≤ 'z' ∨ '0' ≤ c ∧ c ≤ '9'

/-- `[-_.]`. -/
def IsSeparator (c : Char) : Prop := c = '-' ∨ c = '_' ∨ c = '.'

instance (c : Char) : Decidable (IsIdChar c) := inferInstanceAs (Decidable (_ ∨ _))

instance (c : Char) : Decidable (IsSeparator c) := inferInstanceAs (Decidable (_ ∨ _ ∨ _))

/-- One or more runs of `[a-z0-9]`, separated by single separators. -/
inductive Runs : List Char → Prop
  | run {r : List Char} : r ≠ [] → (∀ c ∈ r, IsIdChar c) → Runs r
  | sep {r : List Char} {s : Char} {rest : List Char} : r ≠ [] → (∀ c ∈ r, IsIdChar c) →
      IsSeparator s → Runs rest → Runs (r ++ s :: rest)

/-- A prefix of a string of the grammar. -/
def ValidPrefix (t : List Char) : Prop := ∃ u, Runs (t ++ u)

/-- What may follow a char of a run: nothing, more of the runs, or a separator and runs. -/
def Continues (cs : List Char) : Prop :=
  cs = [] ∨ Runs cs ∨ ∃ s rest, cs = s :: rest ∧ IsSeparator s ∧ Runs rest

/-- The grammar from a state of the scanner: after a separator (or at the start) runs must
follow; after a char of a run the string continues. -/
def Accepts : Bool → List Char → Prop
  | true, cs => Runs cs
  | false, cs => Continues cs

/-- A prefix of what the grammar accepts from a state. -/
def AcceptsPrefix (last : Bool) (t : List Char) : Prop := ∃ u, Accepts last (t ++ u)

/-! ## One char at a time -/

section Grammar

theorem not_isSeparator_of_isIdChar {c : Char} (h : IsIdChar c) : ¬ IsSeparator c := by
  unfold IsIdChar at h
  unfold IsSeparator
  rintro (rfl | rfl | rfl) <;> simp_all [Char.le_def]

theorem runs_ne_nil {cs : List Char} (h : Runs cs) : cs ≠ [] := by
  cases h with
  | run hr _ => exact hr
  | sep _ _ _ _ => simp

theorem Runs.forall_mem {cs : List Char} (h : Runs cs) : ∀ c ∈ cs, IsIdChar c ∨ IsSeparator c := by
  induction h with
  | run _ hid => exact fun c hc => .inl (hid c hc)
  | sep _ hid hs _ ih =>
      intro c hc
      rcases List.mem_append.mp hc with hc | hc
      · exact .inl (hid c hc)
      · rcases List.mem_cons.mp hc with rfl | hc
        · exact .inr hs
        · exact ih c hc

/-- A char of a run in front of runs extends their first run. -/
theorem Runs.cons {c : Char} {cs : List Char} (hc : IsIdChar c) (h : Runs cs) : Runs (c :: cs) := by
  cases h with
  | run hr hchars =>
      exact .run (List.cons_ne_nil c _) (List.forall_mem_cons.mpr ⟨hc, hchars⟩)
  | sep hr hchars hs hrest =>
      exact .sep (r := c :: _) (List.cons_ne_nil c _) (List.forall_mem_cons.mpr ⟨hc, hchars⟩) hs
        hrest

theorem runs_cons_iff {c : Char} {cs : List Char} : Runs (c :: cs) ↔ IsIdChar c ∧ Continues cs := by
  constructor
  · intro h
    generalize hl : c :: cs = l at h
    cases h with
    | run hr hchars =>
        subst hl
        refine ⟨hchars c List.mem_cons_self, ?_⟩
        by_cases hnil : cs = []
        · exact .inl hnil
        · exact .inr (.inl (.run hnil fun c' hc' => hchars c' (List.mem_cons_of_mem c hc')))
    | @sep r s rest hr hchars hs hrest =>
        obtain ⟨c', r', rfl⟩ := List.exists_cons_of_ne_nil hr
        rw [List.cons_append, List.cons.injEq] at hl
        obtain ⟨rfl, rfl⟩ := hl
        refine ⟨hchars c List.mem_cons_self, ?_⟩
        by_cases hnil : r' = []
        · subst hnil
          exact .inr (.inr ⟨s, rest, rfl, hs, hrest⟩)
        · exact .inr (.inl (.sep hnil (fun c' hc' => hchars c' (List.mem_cons_of_mem c hc')) hs
            hrest))
  · rintro ⟨hc, rfl | hruns | ⟨s, rest, rfl, hs, hrest⟩⟩
    · exact .run (List.cons_ne_nil c []) (by simpa using hc)
    · exact hruns.cons hc
    · exact .sep (r := [c]) (List.cons_ne_nil c []) (by simpa using hc) hs hrest

theorem continues_cons_iff {c : Char} {cs : List Char} :
    Continues (c :: cs) ↔ IsIdChar c ∧ Continues cs ∨ IsSeparator c ∧ Runs cs := by
  show c :: cs = [] ∨ Runs (c :: cs) ∨ (∃ s rest, c :: cs = s :: rest ∧ IsSeparator s ∧ Runs rest) ↔ _
  rw [runs_cons_iff]
  simp only [reduceCtorEq, List.cons.injEq, false_or]
  constructor
  · rintro (h | ⟨s, rest, ⟨rfl, rfl⟩, hs, hrest⟩)
    · exact .inl h
    · exact .inr ⟨hs, hrest⟩
  · rintro (h | ⟨hs, hrest⟩)
    · exact .inl h
    · exact .inr ⟨c, cs, ⟨rfl, rfl⟩, hs, hrest⟩

theorem accepts_nil (last : Bool) : Accepts last [] ↔ last = false := by
  cases last with
  | true => simpa [Accepts] using fun h => runs_ne_nil h rfl
  | false => simp [Accepts, Continues]

/-- A char moves the grammar to the state the scanner moves to, if the scanner lets it
through: a char of a run always, a separator only after a char of a run. -/
theorem accepts_cons (last : Bool) (c : Char) (cs : List Char) :
    Accepts last (c :: cs) ↔
      (IsIdChar c ∨ IsSeparator c ∧ last = false) ∧ Accepts (decide (IsSeparator c)) cs := by
  by_cases hid : IsIdChar c
  · have hsep := not_isSeparator_of_isIdChar hid
    cases last <;> simp [Accepts, runs_cons_iff, continues_cons_iff, hid, hsep]
  · by_cases hsep : IsSeparator c <;> cases last <;>
      simp [Accepts, runs_cons_iff, continues_cons_iff, hid, hsep]

theorem acceptsPrefix_nil (last : Bool) : AcceptsPrefix last [] :=
  ⟨['a'], by cases last <;> simp [Accepts, Continues, runs_cons_iff, IsIdChar]⟩

theorem acceptsPrefix_cons (last : Bool) (c : Char) (t : List Char) :
    AcceptsPrefix last (c :: t) ↔
      (IsIdChar c ∨ IsSeparator c ∧ last = false) ∧ AcceptsPrefix (decide (IsSeparator c)) t := by
  simp only [AcceptsPrefix, List.cons_append, accepts_cons]
  exact ⟨fun ⟨u, hc, hu⟩ => ⟨hc, u, hu⟩, fun ⟨hc, u, hu⟩ => ⟨u, hc, hu⟩⟩

theorem isSeparator_of_acceptsPrefix {last : Bool} {t : List Char} (hstart : AcceptsPrefix last t)
    (hnot : ¬ Accepts last t) :
    t = [] ∧ last = true ∨ ∃ c, t.getLast? = some c ∧ IsSeparator c := by
  induction t generalizing last with
  | nil =>
      rw [accepts_nil] at hnot
      exact .inl ⟨rfl, by simpa using hnot⟩
  | cons c t ih =>
      obtain ⟨hc, hstart'⟩ := (acceptsPrefix_cons last c t).mp hstart
      have hnot' : ¬ Accepts (decide (IsSeparator c)) t := fun h => hnot ((accepts_cons _ _ _).mpr ⟨hc, h⟩)
      right
      rcases ih hstart' hnot' with ⟨rfl, hsep⟩ | ⟨c', hlast, hsep⟩
      · exact ⟨c, rfl, by simpa using hsep⟩
      · refine ⟨c', ?_, hsep⟩
        rw [List.getLast?_cons, hlast]
        rfl

end Grammar

/-! ## The scanner -/

section Scanner

theorem currentCharIsSeparator_eq (c : Char) :
    currentCharIsSeparator c =
      if IsIdChar c then some false else if IsSeparator c then some true else none := rfl

/-- The error a char stopping the scan gives: a char of the alphabet can only be a separator
in the wrong place. -/
def charErrorKind (c : Char) : ParseErrorKind :=
  if IsIdChar c ∨ IsSeparator c then .redundantSeparator else .invalidChar

theorem validateFrom_eq_ok_iff (i : ℕ) (last : Bool) (this : Option (ℕ × Char)) (t : List Char) :
    validateFrom i last this t = .ok () ↔ Accepts last t := by
  induction t generalizing i last this with
  | nil =>
      rw [accepts_nil]
      cases last <;> simp [validateFrom]
  | cons c t ih =>
      rw [accepts_cons]
      unfold validateFrom
      rw [currentCharIsSeparator_eq]
      by_cases hid : IsIdChar c
      · -- a char of a run goes through in either state
        simp [hid, not_isSeparator_of_isIdChar hid, ih]
      · by_cases hsep : IsSeparator c
        · cases last <;> simp [hid, hsep, ih]
        · simp [hid, hsep]

/-- The scan stops at the first char where the rest is no longer a prefix of the grammar,
with the index of that char counted from `i`. -/
theorem validateFrom_eq_error_of_not_acceptsPrefix (i : ℕ) (last : Bool) (this : Option (ℕ × Char))
    (t : List Char) (k : ℕ) (hk : k < t.length) (hstart : AcceptsPrefix last (t.take k))
    (hnot : ¬ AcceptsPrefix last (t.take (k + 1))) :
    validateFrom i last this t = .error ⟨charErrorKind t[k], some (i + k, t[k])⟩ := by
  induction t generalizing i last this k with
  | nil => exact absurd hk (Nat.not_lt_zero k)
  | cons c t ih =>
      unfold validateFrom
      rw [currentCharIsSeparator_eq]
      cases k with
      | zero =>
          simp only [List.take_succ_cons, List.take_zero, acceptsPrefix_cons,
            acceptsPrefix_nil, and_true] at hnot
          have hid : ¬ IsIdChar c := fun h => hnot (.inl h)
          by_cases hsep : IsSeparator c
          · have hlast : last = true := by
              by_contra hlast
              exact hnot (.inr ⟨hsep, Bool.eq_false_iff.mpr hlast⟩)
            simp [hid, hsep, hlast, charErrorKind]
          · simp [hid, hsep, charErrorKind]
      | succ k =>
          simp only [List.take_succ_cons, acceptsPrefix_cons] at hstart hnot
          have hnot' : ¬ AcceptsPrefix (decide (IsSeparator c)) (t.take (k + 1)) :=
            fun h => hnot ⟨hstart.1, h⟩
          have hrest := ih (i + 1) _ (some (i, c)) k (by simpa using hk) hstart.2 hnot'
          rcases hstart.1 with hid | ⟨hsep, rfl⟩
          · simp only [hid, if_true, not_isSeparator_of_isIdChar hid, decide_false] at hrest ⊢
            simpa [Nat.add_right_comm, Nat.add_assoc] using hrest
          · have hid : ¬ IsIdChar c := fun h => not_isSeparator_of_isIdChar h hsep
            simp only [hid, hsep, if_false, if_true, decide_true] at hrest ⊢
            simpa [Nat.add_right_comm, Nat.add_assoc] using hrest

/-- `this` after the loop from index `i`: the last char and its index, or `this` as it was
on no chars. -/
def lastSeen : ℕ → Option (ℕ × Char) → List Char → Option (ℕ × Char)
  | _, this, [] => this
  | i, _, c :: rest => lastSeen (i + 1) (some (i, c)) rest

theorem lastSeen_of_getLast? {t : List Char} {c : Char} (h : t.getLast? = some c) (i : ℕ)
    (this : Option (ℕ × Char)) : lastSeen i this t = some (i + t.length - 1, c) := by
  induction t generalizing i this with
  | nil => cases h
  | cons c' t ih =>
      cases t with
      | nil =>
          simp only [List.getLast?_singleton, Option.some.injEq] at h
          subst h
          simp [lastSeen]
      | cons c'' t =>
          rw [List.getLast?_cons_cons] at h
          rw [lastSeen, ih h]
          simp only [List.length_cons]
          congr 2
          omega

/-- A whole prefix of the grammar that the grammar does not accept fails at the end, on the
last char seen. -/
theorem validateFrom_eq_error_of_acceptsPrefix (i : ℕ) (last : Bool) (this : Option (ℕ × Char))
    (t : List Char) (hstart : AcceptsPrefix last t) (hnot : ¬ Accepts last t) :
    validateFrom i last this t = .error ⟨.redundantSeparator, lastSeen i this t⟩ := by
  induction t generalizing i last this with
  | nil =>
      rw [accepts_nil] at hnot
      simp [validateFrom, lastSeen, show last = true by simpa using hnot]
  | cons c t ih =>
      obtain ⟨hc, hstart'⟩ := (acceptsPrefix_cons last c t).mp hstart
      have hnot' : ¬ Accepts (decide (IsSeparator c)) t :=
        fun h => hnot ((accepts_cons _ _ _).mpr ⟨hc, h⟩)
      have hrest := ih (i + 1) _ (some (i, c)) hstart' hnot'
      unfold validateFrom
      rw [currentCharIsSeparator_eq, lastSeen]
      rcases hc with hid | ⟨hsep, rfl⟩
      · simp only [hid, if_true, not_isSeparator_of_isIdChar hid, decide_false] at hrest ⊢
        simpa using hrest
      · have hid : ¬ IsIdChar c := fun h => not_isSeparator_of_isIdChar h hsep
        simp only [hid, hsep, if_false, if_true, decide_true] at hrest ⊢
        simpa using hrest

end Scanner

/-! ## `AccountId::validate` -/

theorem runs_of_validate_eq_ok {accountId : String} (h : validate accountId = .ok ()) :
    Runs accountId.toList := by
  unfold validate at h
  split_ifs at h
  exact (validateFrom_eq_ok_iff 0 true none _).mp h

/-- `AccountId::validate` accepts exactly the strings of the grammar of 2 to 64 bytes.  It
refuses a string out of that range as too short or too long, and otherwise at the first char
at which the string stops being a prefix of the grammar: an `InvalidChar` if that char is
outside `[a-z0-9._-]`, a `RedundantSeparator` if not; a prefix of the grammar that is not in
it ends in a separator and is refused as a `RedundantSeparator` at that last char. -/
theorem validate_spec (accountId : String) :
    (validate accountId = .ok () ↔
      minLen ≤ accountId.utf8ByteSize ∧ accountId.utf8ByteSize ≤ maxLen ∧ Runs accountId.toList) ∧
    (accountId.utf8ByteSize < minLen → validate accountId = .error ⟨.tooShort, none⟩) ∧
    (maxLen < accountId.utf8ByteSize → validate accountId = .error ⟨.tooLong, none⟩) ∧
    (minLen ≤ accountId.utf8ByteSize → accountId.utf8ByteSize ≤ maxLen →
      (∀ i (hi : i < accountId.toList.length),
        (∀ j < i, ValidPrefix (accountId.toList.take (j + 1))) →
        ¬ ValidPrefix (accountId.toList.take (i + 1)) →
        validate accountId =
          .error ⟨if IsIdChar accountId.toList[i] ∨ IsSeparator accountId.toList[i] then
              .redundantSeparator else .invalidChar, some (i, accountId.toList[i])⟩) ∧
      (ValidPrefix accountId.toList → ¬ Runs accountId.toList →
        ∃ c, accountId.toList.getLast? = some c ∧ IsSeparator c ∧
          validate accountId = .error ⟨.redundantSeparator, some (accountId.toList.length - 1, c)⟩)) := by
  have hrange : minLen ≤ accountId.utf8ByteSize → accountId.utf8ByteSize ≤ maxLen →
      validate accountId = validateFrom 0 true none accountId.toList := by
    intro hmin hmax
    rw [validate, if_neg (Nat.not_lt.mpr hmin), if_neg (Nat.not_lt.mpr hmax)]
  refine ⟨?_, fun hshort => by rw [validate, if_pos hshort], fun hlong => ?_, fun hmin hmax => ⟨?_, ?_⟩⟩
  · by_cases hmin : minLen ≤ accountId.utf8ByteSize
    · by_cases hmax : accountId.utf8ByteSize ≤ maxLen
      · rw [hrange hmin hmax, validateFrom_eq_ok_iff]
        exact ⟨fun h => ⟨hmin, hmax, h⟩, fun h => h.2.2⟩
      · rw [validate, if_neg (Nat.not_lt.mpr hmin), if_pos (Nat.lt_of_not_le hmax)]
        simp [hmax]
    · rw [validate, if_pos (Nat.lt_of_not_le hmin)]
      simp [hmin]
  · have hmin : ¬ accountId.utf8ByteSize < minLen := by unfold minLen maxLen at *; omega
    rw [validate, if_neg hmin, if_pos hlong]
  · -- the first refused char: every shorter prefix is a prefix of the grammar
    intro i hi hbefore hnot
    have hstart : AcceptsPrefix true (accountId.toList.take i) := by
      cases i with
      | zero => exact acceptsPrefix_nil true
      | succ i => exact hbefore i (Nat.lt_succ_self i)
    rw [hrange hmin hmax, validateFrom_eq_error_of_not_acceptsPrefix 0 true none _ i hi hstart hnot,
      Nat.zero_add]
    rfl
  · intro hstart hnot
    have hnil : accountId.toList ≠ [] := by
      intro hnil
      rw [String.toList_eq_nil_iff.mp hnil, String.utf8ByteSize_empty] at hmin
      exact absurd hmin (by decide)
    rcases @isSeparator_of_acceptsPrefix true _ hstart hnot with ⟨hempty, -⟩ | ⟨c, hlast, hsep⟩
    · exact absurd hempty hnil
    · refine ⟨c, hlast, hsep, ?_⟩
      rw [hrange hmin hmax, validateFrom_eq_error_of_acceptsPrefix 0 true none _ hstart hnot,
        lastSeen_of_getLast? hlast, Nat.zero_add]

/-- The error precedence of the documentation: a first char out of the alphabet, a doubled
separator before the chars out of it, and a separator at the end. -/
example : validate "A__ƒƒluent." = .error ⟨.invalidChar, some (0, 'A')⟩ ∧
    validate "a__ƒƒluent." = .error ⟨.redundantSeparator, some (2, '_')⟩ ∧
    validate "affluent." = .error ⟨.redundantSeparator, some (8, '.')⟩ := by
  decide

end Nearcore.AccountId
