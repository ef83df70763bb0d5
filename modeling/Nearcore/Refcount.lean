import Nearcore.LittleEndian
import Nearcore.RustArith

/-!
# Reference-counted values

The reference-counted columns of `near-store` (`db/refcount.rs`) store a
value followed by its reference count, a little-endian `i64`.  RocksDB
merges the operands of a key with `refcount_merge`, which adds up the counts
and keeps a payload of positive count: the result is the payload with the
total count if the total is positive, the bare count if it is negative, and
the empty value if it is zero.  RocksDB may merge any grouping of the
operands and feed a partial result back as an operand or as the existing
value.

Whatever the grouping and the order, the merge gives the same value, as long
as every value of positive count carries the same payload and no `i64` sum
overflows (`refcountMerge_compose`): the result depends on the total count
alone.
-/

namespace Nearcore
namespace Store

/-- `i64::to_le_bytes`. -/
def i64ToLeBytes (v : ℤ) : List UInt8 := LittleEndian.encodeSigned 8 v

/-- `i64::from_le_bytes`. -/
def i64FromLeBytes (bytes : List UInt8) : ℤ := LittleEndian.decodeSigned bytes

/-- `decode_value_with_rc`: the payload, when the count is positive, and the
count.  The `debug_assert!` that a value too short for a count is empty is not
compiled into release builds. -/
def decodeValueWithRc (bytes : List UInt8) : Option (List UInt8) × ℤ :=
  if bytes.length < 8 then (none, 0)
  else
    let rc := i64FromLeBytes (bytes.drop (bytes.length - 8))
    if rc ≤ 0 then (none, rc) else (some (bytes.take (bytes.length - 8)), rc)

/-- `strip_refcount`. -/
def stripRefcount (bytes : List UInt8) : Option (List UInt8) :=
  if bytes.length < 8 then none
  else if 0 < i64FromLeBytes (bytes.drop (bytes.length - 8)) then
    some (bytes.take (bytes.length - 8))
  else none

/-- `std::num::NonZeroU32`. -/
def NonZeroU32 : Type := { n : ℕ // 0 < n ∧ n < 2 ^ 32 }

/-- `add_positive_refcount`. -/
def addPositiveRefcount (data : List UInt8) (rc : NonZeroU32) : List UInt8 :=
  data ++ i64ToLeBytes rc.val

/-- `encode_negative_refcount`: the empty value with the count `-rc`. -/
def encodeNegativeRefcount (rc : NonZeroU32) : List UInt8 := i64ToLeBytes (-(rc.val : ℤ))

/-- One turn of the loop of `refcount_merge`: the first payload is kept, the
count added.  `none` where `rc += delta` overflows and panics. -/
def mergeOperand (acc : Option (List UInt8) × ℤ) (operand : List UInt8) :
    Option (Option (List UInt8) × ℤ) :=
  let (newPayload, delta) := decodeValueWithRc operand
  let payload := if acc.1.isNone then newPayload else acc.1
  (I64.checkedAdd acc.2 delta).map fun rc => (payload, rc)

/-- The `match rc.cmp(&0)` that ends `refcount_merge`. -/
def encodeRefcount (payload : Option (List UInt8)) (rc : ℤ) : List UInt8 :=
  match compare rc 0 with
  | .lt => i64ToLeBytes rc
  | .eq => []
  | .gt => payload.getD [] ++ i64ToLeBytes rc

/-- `refcount_merge`; `none` where it panics.  The `debug_assert_eq!` on the
payloads is not compiled into release builds. -/
def refcountMerge (existing : Option (List UInt8)) (operands : List (List UInt8)) :
    Option (List UInt8) :=
  (operands.foldlM mergeOperand (existing.elim (none, 0) decodeValueWithRc)).map
    fun acc => encodeRefcount acc.1 acc.2


/-! ## Reading values back -/

theorem i64FromLeBytes_i64ToLeBytes {v : ℤ} (h : I64.InRange v) :
    i64FromLeBytes (i64ToLeBytes v) = v := by
  obtain ⟨hlo, hhi⟩ := h
  exact LittleEndian.decodeSigned_encodeSigned 8 v (by norm_num; omega) (by norm_num; omega)

@[simp] theorem length_i64ToLeBytes (v : ℤ) : (i64ToLeBytes v).length = 8 :=
  LittleEndian.length_encodeSigned 8 v

theorem i64FromLeBytes_inRange {bytes : List UInt8} (hlen : bytes.length = 8) :
    I64.InRange (i64FromLeBytes bytes) := by
  have h := @LittleEndian.decodeSigned_mem_range bytes (by omega)
  rw [hlen] at h
  unfold I64.InRange i64FromLeBytes
  norm_num at h
  omega

theorem decodeValueWithRc_of_lt {bytes : List UInt8} (h : bytes.length < 8) :
    decodeValueWithRc bytes = (none, 0) := by
  rw [decodeValueWithRc, if_pos h]

theorem decodeValueWithRc_of_le {bytes : List UInt8} (h : 8 ≤ bytes.length) :
    decodeValueWithRc bytes =
      (if 0 < i64FromLeBytes (bytes.drop (bytes.length - 8)) then
        some (bytes.take (bytes.length - 8)) else none,
        i64FromLeBytes (bytes.drop (bytes.length - 8))) := by
  rw [decodeValueWithRc, if_neg (by omega)]
  dsimp only
  split_ifs <;> first | rfl | omega

/-- The count a value carries. -/
def refcountOf (bytes : List UInt8) : ℤ := (decodeValueWithRc bytes).2

theorem refcountOf_inRange (bytes : List UInt8) : I64.InRange (refcountOf bytes) := by
  unfold refcountOf
  rcases lt_or_ge bytes.length 8 with h | h
  · rw [decodeValueWithRc_of_lt h]
    decide
  · rw [decodeValueWithRc_of_le h]
    exact i64FromLeBytes_inRange (by simp; omega)

theorem payload_isSome_iff (bytes : List UInt8) :
    (decodeValueWithRc bytes).1.isSome ↔ 0 < refcountOf bytes := by
  unfold refcountOf
  rcases lt_or_ge bytes.length 8 with h | h
  · simp [decodeValueWithRc_of_lt h]
  · rw [decodeValueWithRc_of_le h]
    split_ifs with hpos
    · simpa
    · simpa using hpos

/-- A value is read back with its payload and count, the payload only for a
positive count. -/
theorem decodeValueWithRc_append {payload : List UInt8} {n : ℤ} (hn : I64.InRange n) :
    decodeValueWithRc (payload ++ i64ToLeBytes n) = (if 0 < n then some payload else none, n) := by
  have hdrop : (payload ++ i64ToLeBytes n).drop ((payload ++ i64ToLeBytes n).length - 8) =
      i64ToLeBytes n := by
    simp
  have htake : (payload ++ i64ToLeBytes n).take ((payload ++ i64ToLeBytes n).length - 8) =
      payload := by
    simp
  rw [decodeValueWithRc_of_le (by simp), hdrop, htake, i64FromLeBytes_i64ToLeBytes hn]

theorem decodeValueWithRc_addPositiveRefcount (data : List UInt8) (rc : NonZeroU32) :
    decodeValueWithRc (addPositiveRefcount data rc) = (some data, (rc.val : ℤ)) := by
  obtain ⟨rc, hpos, hlt⟩ := rc
  have hrange : I64.InRange rc := ⟨by omega, by omega⟩
  show decodeValueWithRc (data ++ i64ToLeBytes rc) = _
  rw [decodeValueWithRc_append hrange, if_pos (by omega)]

theorem decodeValueWithRc_encodeNegativeRefcount (rc : NonZeroU32) :
    decodeValueWithRc (encodeNegativeRefcount rc) = (none, -(rc.val : ℤ)) := by
  obtain ⟨rc, hpos, hlt⟩ := rc
  have hrange : I64.InRange (-(rc : ℤ)) := ⟨by omega, by omega⟩
  have h := @decodeValueWithRc_append [] _ hrange
  rw [if_neg (by omega), List.nil_append] at h
  exact h

/-- `strip_refcount` keeps what `decode_value_with_rc` returns as the payload. -/
theorem stripRefcount_eq (bytes : List UInt8) :
    stripRefcount bytes = (decodeValueWithRc bytes).1 := by
  rcases lt_or_ge bytes.length 8 with h | h
  · rw [stripRefcount, if_pos h, decodeValueWithRc_of_lt h]
  · rw [stripRefcount, if_neg (by omega), decodeValueWithRc_of_le h]

/-! ## The merge -/

/-- A value whose payload, where it has one, is `v`. -/
def PayloadIs (v bytes : List UInt8) : Prop :=
  (decodeValueWithRc bytes).1 = none ∨ (decodeValueWithRc bytes).1 = some v

instance (v bytes : List UInt8) : Decidable (PayloadIs v bytes) :=
  inferInstanceAs (Decidable (_ ∨ _))

theorem PayloadIs.eq {v bytes p : List UInt8} (h : PayloadIs v bytes)
    (hp : (decodeValueWithRc bytes).1 = some p) : p = v := by
  rcases h with h | h
  · rw [h] at hp
    cases hp
  · rw [h] at hp
    exact (Option.some.inj hp).symm

theorem mergeOperand_eq (payload : Option (List UInt8)) (rc : ℤ) (operand : List UInt8) :
    mergeOperand (payload, rc) operand =
      (I64.checkedAdd rc (refcountOf operand)).map fun rc =>
        (if payload.isNone then (decodeValueWithRc operand).1 else payload, rc) := rfl

/-- The loop of `refcount_merge` adds up the counts, keeps a payload `v`, and
ends without one only when it started without one and met no positive count. -/
theorem foldlM_mergeOperand_spec {v : List UInt8} {operands : List (List UInt8)}
    (hoperands : ∀ op ∈ operands, PayloadIs v op) {payload payload' : Option (List UInt8)}
    {rc rc' : ℤ} (hpayload : ∀ p, payload = some p → p = v)
    (h : operands.foldlM mergeOperand (payload, rc) = some (payload', rc')) :
    rc' = rc + (operands.map refcountOf).sum ∧ (I64.InRange rc → I64.InRange rc') ∧
      (∀ p, payload' = some p → p = v) ∧
      (payload' = none → payload = none ∧ ∀ op ∈ operands, refcountOf op ≤ 0) := by
  induction operands generalizing payload rc with
  | nil =>
      simp only [List.foldlM_nil, pure, Option.some.injEq, Prod.mk.injEq] at h
      obtain ⟨rfl, rfl⟩ := h
      exact ⟨by simp, id, hpayload, fun h => ⟨h, by simp⟩⟩
  | cons op ops ih =>
      rw [List.foldlM_cons, mergeOperand_eq] at h
      obtain ⟨⟨payload₁, rc₁⟩, hstep, h⟩ := Option.bind_eq_some_iff.mp h
      obtain ⟨rc₂, hadd, hmap⟩ := Option.map_eq_some_iff.mp hstep
      simp only [Prod.mk.injEq] at hmap
      obtain ⟨rfl, rfl⟩ := hmap
      obtain ⟨hfit, rfl⟩ := I64.checkedAdd_eq_some_iff.mp hadd
      have hpayload₁ : ∀ p, (if payload.isNone then (decodeValueWithRc op).1 else payload) =
          some p → p = v := by
        intro p hp
        cases payload with
        | none => exact (hoperands op List.mem_cons_self).eq hp
        | some q => exact hpayload p hp
      obtain ⟨hrc, hrange, hv, hnone⟩ :=
        ih (fun op' hop' => hoperands op' (List.mem_cons_of_mem _ hop')) hpayload₁ h
      refine ⟨by rw [hrc, List.map_cons, List.sum_cons]; omega, fun _ => hrange hfit, hv,
        fun hnone' => ?_⟩
      obtain ⟨hnone₁, hops⟩ := hnone hnone'
      cases payload with
      | none =>
          -- the first operand gave no payload, so its count is not positive
          have hop : refcountOf op ≤ 0 := by
            rw [← not_lt, ← payload_isSome_iff]
            simpa using hnone₁
          refine ⟨rfl, fun op' hop' => ?_⟩
          rcases List.mem_cons.mp hop' with rfl | hop'
          · exact hop
          · exact hops op' hop'
      | some q => simp at hnone₁

/-- The loop does not panic while every partial sum of the counts fits in
`i64`. -/
theorem foldlM_mergeOperand_isSome {operands : List (List UInt8)} {payload : Option (List UInt8)}
    {rc : ℤ} (hfit : ∀ k, 0 < k → k ≤ operands.length →
      I64.InRange (rc + ((operands.take k).map refcountOf).sum)) :
    (operands.foldlM mergeOperand (payload, rc)).isSome := by
  induction operands generalizing payload rc with
  | nil => rfl
  | cons op ops ih =>
      have hfirst : I64.InRange (rc + refcountOf op) := by
        simpa using hfit 1 (by omega) (by simp)
      rw [List.foldlM_cons, mergeOperand_eq, I64.checkedAdd_of_inRange hfirst]
      refine ih fun k hk hlen => ?_
      have hnext := hfit (k + 1) (by omega) (by simp; omega)
      simpa [List.take_succ_cons, add_assoc] using hnext

/-- The count of the existing value, zero for none. -/
def existingRefcount (existing : Option (List UInt8)) : ℤ :=
  (existing.elim (none, 0) decodeValueWithRc).2

/-- The total count a merge adds up. -/
def totalRefcount (existing : Option (List UInt8)) (operands : List (List UInt8)) : ℤ :=
  existingRefcount existing + (operands.map refcountOf).sum

/-- No partial sum of the counts of a merge overflows `i64`. -/
def NoOverflow (existing : Option (List UInt8)) (operands : List (List UInt8)) : Prop :=
  ∀ k ≤ operands.length,
    I64.InRange (existingRefcount existing + ((operands.take k).map refcountOf).sum)

instance (existing : Option (List UInt8)) (operands : List (List UInt8)) :
    Decidable (NoOverflow existing operands) :=
  inferInstanceAs (Decidable (∀ k ≤ operands.length, _))

theorem encodeRefcount_of_nonpos {rc : ℤ} (h : rc ≤ 0) (payload payload' : Option (List UInt8)) :
    encodeRefcount payload rc = encodeRefcount payload' rc := by
  unfold encodeRefcount
  rcases lt_or_eq_of_le h with h | rfl
  · rw [compare_lt_iff_lt.mpr h]
  · rfl

/-- The value the merge starts from: a payload `v`, if any, and no payload
unless its count is not positive. -/
theorem existing_spec {v : List UInt8} {existing : Option (List UInt8)}
    (hexisting : ∀ e, existing = some e → PayloadIs v e) :
    (∀ p, (existing.elim (none, 0) decodeValueWithRc).1 = some p → p = v) ∧
      ((existing.elim (none, 0) decodeValueWithRc).1 = none → existingRefcount existing ≤ 0) ∧
      I64.InRange (existingRefcount existing) := by
  cases existing with
  | none => exact ⟨by simp, fun _ => le_refl _, by decide⟩
  | some e =>
      refine ⟨fun p hp => (hexisting e rfl).eq hp, fun hnone => ?_, refcountOf_inRange e⟩
      have hpos := (payload_isSome_iff e).not.mp (by simpa using hnone)
      exact le_of_not_gt hpos

/-- Where the merge does not panic, its result is the payload `v` with the
total count, the bare total count, or the empty value. -/
theorem refcountMerge_eq_some {v : List UInt8} {existing : Option (List UInt8)}
    {operands : List (List UInt8)} {r : List UInt8}
    (hexisting : ∀ e, existing = some e → PayloadIs v e)
    (hoperands : ∀ op ∈ operands, PayloadIs v op) (h : refcountMerge existing operands = some r) :
    r = encodeRefcount (some v) (totalRefcount existing operands) ∧
      I64.InRange (totalRefcount existing operands) := by
  obtain ⟨⟨payload', rc'⟩, hloop, rfl⟩ := Option.map_eq_some_iff.mp h
  obtain ⟨hv₀, hnone₀, hrange₀⟩ := existing_spec hexisting
  obtain ⟨hrc, hrange, hv, hnone⟩ := foldlM_mergeOperand_spec hoperands hv₀ hloop
  have htotal : rc' = totalRefcount existing operands := hrc
  rw [← htotal]
  refine ⟨?_, hrange hrange₀⟩
  rcases le_or_gt rc' 0 with hle | hpos
  · exact encodeRefcount_of_nonpos hle _ _
  · -- a positive total has a positive count somewhere, which brought the payload
    cases hpayload : payload' with
    | none =>
        obtain ⟨hnone₁, hops⟩ := hnone hpayload
        have hsum : (operands.map refcountOf).sum ≤ 0 := by
          simpa using List.sum_le_sum (g := fun _ => (0 : ℤ)) hops
        have := hnone₀ hnone₁
        unfold totalRefcount at htotal
        omega
    | some p => rw [hv p hpayload]

theorem refcountMerge_isSome {existing : Option (List UInt8)} {operands : List (List UInt8)}
    (hfit : NoOverflow existing operands) : (refcountMerge existing operands).isSome := by
  unfold refcountMerge
  rw [Option.isSome_map]
  exact foldlM_mergeOperand_isSome fun k _ hk => hfit k hk

theorem encodeRefcount_eq (v : List UInt8) (n : ℤ) :
    encodeRefcount (some v) n =
      if 0 < n then v ++ i64ToLeBytes n else if n < 0 then i64ToLeBytes n else [] := by
  unfold encodeRefcount
  rcases lt_trichotomy n 0 with h | rfl | h
  · rw [compare_lt_iff_lt.mpr h, if_neg (by omega), if_pos h]
  · rfl
  · rw [compare_gt_iff_gt.mpr h, if_pos h]
    rfl

theorem decodeValueWithRc_encodeRefcount (v : List UInt8) {n : ℤ} (hn : I64.InRange n) :
    decodeValueWithRc (encodeRefcount (some v) n) = (if 0 < n then some v else none, n) := by
  rw [encodeRefcount_eq]
  rcases lt_trichotomy n 0 with h | rfl | h
  · rw [if_neg (by omega), if_pos h]
    simpa [if_neg (show ¬ 0 < n by omega)] using @decodeValueWithRc_append [] n hn
  · rfl
  · rw [if_pos h]
    exact decodeValueWithRc_append hn

theorem refcountOf_encodeRefcount (v : List UInt8) {n : ℤ} (hn : I64.InRange n) :
    refcountOf (encodeRefcount (some v) n) = n := by
  rw [refcountOf, decodeValueWithRc_encodeRefcount v hn]

theorem payloadIs_encodeRefcount (v : List UInt8) {n : ℤ} (hn : I64.InRange n) :
    PayloadIs v (encodeRefcount (some v) n) := by
  unfold PayloadIs
  rw [decodeValueWithRc_encodeRefcount v hn]
  split_ifs
  · exact .inr rfl
  · exact .inl rfl

/-! ## Any grouping and order of the operands -/

theorem totalRefcount_append (existing : Option (List UInt8)) (A B : List (List UInt8)) :
    totalRefcount existing (A ++ B) = totalRefcount existing A + (B.map refcountOf).sum := by
  simp only [totalRefcount, List.map_append, List.sum_append]
  omega

/-- However RocksDB groups and orders the operands, and whether it feeds a
partial result back as an operand or as the existing value, the merge gives
the same value wherever no `i64` sum overflows, provided every value of
positive count carries the payload `v`; and without an overflow the merge
returns `v` with the total count if it is positive, the bare count if it is
negative, and the empty value if it is zero. -/
theorem refcountMerge_compose {v : List UInt8} {existing : Option (List UInt8)}
    {A B C : List (List UInt8)} (hexisting : ∀ e, existing = some e → PayloadIs v e)
    (hoperands : ∀ op ∈ A ++ B ++ C, PayloadIs v op) :
    (∀ rB x y, refcountMerge none B = some rB → refcountMerge existing (A ++ [rB] ++ C) = some x →
      refcountMerge existing (A ++ B ++ C) = some y → x = y) ∧
    (∀ rA x y, refcountMerge existing A = some rA → refcountMerge (some rA) B = some x →
      refcountMerge existing (A ++ B) = some y → x = y) ∧
    (∀ operands x y, operands.Perm (A ++ B ++ C) → refcountMerge existing operands = some x →
      refcountMerge existing (A ++ B ++ C) = some y → x = y) ∧
    (NoOverflow existing (A ++ B ++ C) →
      refcountMerge existing (A ++ B ++ C) =
        some (if 0 < totalRefcount existing (A ++ B ++ C) then
            v ++ i64ToLeBytes (totalRefcount existing (A ++ B ++ C))
          else if totalRefcount existing (A ++ B ++ C) < 0 then
            i64ToLeBytes (totalRefcount existing (A ++ B ++ C))
          else [])) := by
  have hA : ∀ op ∈ A, PayloadIs v op := fun op hop => hoperands op (by simp [hop])
  have hB : ∀ op ∈ B, PayloadIs v op := fun op hop => hoperands op (by simp [hop])
  have hC : ∀ op ∈ C, PayloadIs v op := fun op hop => hoperands op (by simp [hop])
  refine ⟨fun rB x y hrB hx hy => ?_, fun rA x y hrA hx hy => ?_,
    fun operands x y hperm hx hy => ?_, fun hfit => ?_⟩
  · -- the merged operand carries the payload and the count of `B`
    obtain ⟨rfl, hrange⟩ := refcountMerge_eq_some (by simp) hB hrB
    have hops : ∀ op ∈ A ++ [encodeRefcount (some v) (totalRefcount none B)] ++ C,
        PayloadIs v op := by
      intro op hop
      simp only [List.mem_append, List.mem_singleton] at hop
      rcases hop with (hop | rfl) | hop
      · exact hA op hop
      · exact payloadIs_encodeRefcount v hrange
      · exact hC op hop
    have hcountB : totalRefcount none B = (B.map refcountOf).sum := by
      simp [totalRefcount, existingRefcount]
    have hcount : refcountOf (encodeRefcount (some v) (totalRefcount none B)) =
        (B.map refcountOf).sum :=
      (refcountOf_encodeRefcount v hrange).trans hcountB
    have htotal : totalRefcount existing (A ++ [encodeRefcount (some v) (totalRefcount none B)] ++ C) =
        totalRefcount existing (A ++ B ++ C) := by
      simp only [totalRefcount_append, List.map_cons, List.map_nil, List.sum_cons, List.sum_nil,
        hcount]
      omega
    rw [(refcountMerge_eq_some hexisting hops hx).1, (refcountMerge_eq_some hexisting hoperands hy).1,
      htotal]
  · -- the merged existing value carries the payload and the count of `A`
    obtain ⟨rfl, hrange⟩ := refcountMerge_eq_some hexisting hA hrA
    have hcount : existingRefcount (some (encodeRefcount (some v) (totalRefcount existing A))) =
        totalRefcount existing A :=
      refcountOf_encodeRefcount v hrange
    have hAB : ∀ op ∈ A ++ B, PayloadIs v op := fun op hop =>
      (List.mem_append.mp hop).elim (hA op) (hB op)
    rw [(refcountMerge_eq_some (fun e he => Option.some.inj he ▸ payloadIs_encodeRefcount v hrange)
      hB hx).1, (refcountMerge_eq_some hexisting hAB hy).1, totalRefcount, hcount,
      totalRefcount_append]
  · have hops : ∀ op ∈ operands, PayloadIs v op := fun op hop => hoperands op (hperm.subset hop)
    rw [(refcountMerge_eq_some hexisting hops hx).1, (refcountMerge_eq_some hexisting hoperands hy).1,
      totalRefcount, totalRefcount, (hperm.map refcountOf).sum_eq]
  · obtain ⟨r, hr⟩ := Option.isSome_iff_exists.mp (refcountMerge_isSome hfit)
    rw [hr, (refcountMerge_eq_some hexisting hoperands hr).1, encodeRefcount_eq]

theorem refcountMerge_compose_foo :
    NoOverflow none ([[102, 111, 111, 1, 0, 0, 0, 0, 0, 0, 0]] ++
        [[255, 255, 255, 255, 255, 255, 255, 255]] ++ [[102, 111, 111, 2, 0, 0, 0, 0, 0, 0, 0]]) ∧
      refcountMerge none ([[102, 111, 111, 1, 0, 0, 0, 0, 0, 0, 0]] ++
        [[255, 255, 255, 255, 255, 255, 255, 255]] ++ [[102, 111, 111, 2, 0, 0, 0, 0, 0, 0, 0]]) =
        some (if 0 < totalRefcount none ([[102, 111, 111, 1, 0, 0, 0, 0, 0, 0, 0]] ++
              [[255, 255, 255, 255, 255, 255, 255, 255]] ++ [[102, 111, 111, 2, 0, 0, 0, 0, 0, 0, 0]]) then
            [102, 111, 111] ++ i64ToLeBytes (totalRefcount none ([[102, 111, 111, 1, 0, 0, 0, 0, 0, 0, 0]] ++
              [[255, 255, 255, 255, 255, 255, 255, 255]] ++ [[102, 111, 111, 2, 0, 0, 0, 0, 0, 0, 0]]))
          else if totalRefcount none ([[102, 111, 111, 1, 0, 0, 0, 0, 0, 0, 0]] ++
              [[255, 255, 255, 255, 255, 255, 255, 255]] ++ [[102, 111, 111, 2, 0, 0, 0, 0, 0, 0, 0]]) < 0 then
            i64ToLeBytes (totalRefcount none ([[102, 111, 111, 1, 0, 0, 0, 0, 0, 0, 0]] ++
              [[255, 255, 255, 255, 255, 255, 255, 255]] ++ [[102, 111, 111, 2, 0, 0, 0, 0, 0, 0, 0]]))
          else []) := by
  have hfit : NoOverflow none ([[102, 111, 111, 1, 0, 0, 0, 0, 0, 0, 0]] ++
      [[255, 255, 255, 255, 255, 255, 255, 255]] ++ [[102, 111, 111, 2, 0, 0, 0, 0, 0, 0, 0]]) := by
    decide
  exact ⟨hfit, (refcountMerge_compose (v := [102, 111, 111]) (by simp) (by decide)).2.2.2 hfit⟩

example : refcountMerge none [[102, 111, 111, 2, 0, 0, 0, 0, 0, 0, 0],
    [255, 255, 255, 255, 255, 255, 255, 255], [255, 255, 255, 255, 255, 255, 255, 255]] =
      some [] := by decide

example : refcountMerge (some [102, 111, 111, 1, 0, 0, 0, 0, 0, 0, 0])
    [[254, 255, 255, 255, 255, 255, 255, 255]] =
      some [255, 255, 255, 255, 255, 255, 255, 255] := by decide

end Store
end Nearcore
