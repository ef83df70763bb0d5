import Nearcore.DoomslugApprovals

/-!
# The Doomslug timer

`Doomslug::process_timer` is called periodically with the current time.  Each turn of
its loop (at most `MAX_TIMER_ITERS` of them) first sends the endorsement of the tip
that `set_tip` left pending, once the endorsement delay has passed since the last one
and unless some approval already targets the tip's successor or above; then, once the
skip delay has passed since the timer started, it approves the height after the
timer's and restarts the timer one height on.  `set_tip` moves the tip, restarts the
timer at the tip's successor and makes an endorsement pending.

The honest approver rule of Doomslug is the order of what a node sends: an
endorsement targets a height above every approval the node sent before it and below
every approval it sends after it (`HonestOrder`).  It holds on every run whose tips
come in increasing heights (`runCalls_honest`), with no condition on the times or on
the delays.

Instants and durations are natural numbers, and so are heights: a `+ 1` on a `u64`
height panics (the build has overflow checks) only where the model goes on, so every
run of the code is a prefix of a run of the model.  The approval history is a log for
debugging that nothing here reads, and is left out.
-/

namespace Nearcore

namespace Doomslug

/-- `ApprovalInner::new`: an endorsement of the parent when the target is the height
after it, a skip from the parent's height otherwise. -/
def ApprovalInner.new (parentHash : CryptoHash) (parentHeight targetHeight : ℕ) :
    ApprovalInner :=
  if targetHeight = parentHeight + 1 then .endorsement parentHash else .skip parentHeight

/-- Whether an approval endorses its parent. -/
def ApprovalInner.isEndorsement : ApprovalInner → Bool
  | .endorsement _ => true
  | .skip _ => false

/-- An `Approval` as `Doomslug::create_approval` builds it: what it approves, its
target height and the signer's account; the signature is left out.  (The trackers'
`Approval` has no target height: a tracker knows its own.) -/
structure IssuedApproval where
  inner : ApprovalInner
  targetHeight : ℕ
  accountId : AccountId
  deriving DecidableEq, Repr

/-- `DoomslugTimer`. -/
structure DoomslugTimer where
  started : ℕ
  lastEndorsementSent : ℕ
  height : ℕ
  endorsementDelay : ℕ
  minDelay : ℕ
  delayStep : ℕ
  maxDelay : ℕ
  deriving DecidableEq, Repr

/-- `DoomslugTimer::get_delay`: the skip delay after `n` heights without a final block. -/
def DoomslugTimer.getDelay (self : DoomslugTimer) (n : ℕ) : ℕ :=
  -- `u32::try_from(n).unwrap_or(u32::MAX)`, then `saturating_sub(2)`
  let n32 := min n (2 ^ 32 - 1)
  min self.maxDelay (self.minDelay + self.delayStep * (n32 - 2))

/-- `DoomslugTip`. -/
structure DoomslugTip where
  blockHash : CryptoHash
  height : ℕ
  deriving DecidableEq, Repr

def maxTimerIters : ℕ := 20

def maxHeightsAheadToStoreApprovals : ℕ := 10000

def maxHeightsBeforeToStoreApprovals : ℕ := 20

end Doomslug

open Doomslug in
/-- `Doomslug`, with the fields `process_timer` and `set_tip` read or write; the signer
is the account it signs for. -/
structure Doomslug where
  approvalTracking : BTreeMap ℕ DoomslugApprovalsTrackersAtHeight
  largestTargetHeight : ℕ
  largestFinalHeight : ℕ
  tip : DoomslugTip
  endorsementPending : Bool
  timer : DoomslugTimer
  signer : Option AccountId

namespace Doomslug

/-- `Doomslug::new`; `StaticClock::instant()` is `now`. -/
def new (now largestTargetHeight endorsementDelay minDelay delayStep maxDelay : ℕ)
    (signer : Option AccountId) : Doomslug where
  approvalTracking := .empty
  largestTargetHeight := largestTargetHeight
  largestFinalHeight := 0
  tip := ⟨.default, 0⟩
  endorsementPending := false
  timer := ⟨now, now, 0, endorsementDelay, minDelay, delayStep, maxDelay⟩
  signer := signer

/-- `Doomslug::create_approval`: an approval of the tip for `targetHeight`, if there is a
signer. -/
def createApproval (self : Doomslug) (targetHeight : ℕ) : Option IssuedApproval :=
  self.signer.map fun accountId =>
    ⟨ApprovalInner.new self.tip.blockHash self.tip.height targetHeight, targetHeight, accountId⟩

/-- The endorsement of the tip in a turn of `process_timer`'s loop, unless an approval
already targets the tip's successor or above. -/
def endorseTip (self : Doomslug) : Doomslug × List IssuedApproval :=
  if self.largestTargetHeight ≤ self.tip.height then
    ({ self with largestTargetHeight := self.tip.height + 1 },
      (self.createApproval (self.tip.height + 1)).toList)
  else (self, [])

/-- The first half of a turn of `process_timer`'s loop: a pending endorsement whose delay
has passed is sent, or dropped by `endorseTip`, and is no longer pending. -/
def processEndorsement (self : Doomslug) (curTime : ℕ) : Doomslug × List IssuedApproval :=
  if self.endorsementPending ∧ self.timer.lastEndorsementSent + self.timer.endorsementDelay ≤ curTime
  then
    let endorsed := self.endorseTip
    ({ endorsed.1 with
        timer := { endorsed.1.timer with lastEndorsementSent := curTime }
        endorsementPending := false },
      endorsed.2)
  else (self, [])

/-- The second half of a turn: once the skip delay has passed since the timer started,
the height after the timer's is approved and the timer restarts one height on; `none`
is the `break` out of the loop. -/
def processSkip (self : Doomslug) (skipDelay curTime : ℕ) :
    Option (Doomslug × List IssuedApproval) :=
  if self.timer.started + skipDelay ≤ curTime then
    some ({ self with
        largestTargetHeight := max (self.timer.height + 1) self.largestTargetHeight
        timer := { self.timer with
          started := self.timer.started + skipDelay
          height := self.timer.height + 1 } },
      (self.createApproval (self.timer.height + 1)).toList)
  else none

/-- The loop of `process_timer`, with `iters` turns left; `ret` is what it has sent. -/
def processTimerLoop (curTime : ℕ) :
    ℕ → Doomslug → List IssuedApproval → Doomslug × List IssuedApproval
  | 0, self, ret => (self, ret)
  | iters + 1, self, ret =>
      let skipDelay := self.timer.getDelay (self.timer.height - self.largestFinalHeight)
      let endorsed := self.processEndorsement curTime
      match endorsed.1.processSkip skipDelay curTime with
      | some skipped => processTimerLoop curTime iters skipped.1 (ret ++ endorsed.2 ++ skipped.2)
      | none => (endorsed.1, ret ++ endorsed.2)

/-- `Doomslug::process_timer`: the new state and the approvals to send. -/
def processTimer (self : Doomslug) (curTime : ℕ) : Doomslug × List IssuedApproval :=
  processTimerLoop curTime maxTimerIters self []

/-- `Doomslug::set_tip`. -/
def setTip (self : Doomslug) (now : ℕ) (blockHash : CryptoHash)
    (height lastFinalHeight : ℕ) : Doomslug :=
  { self with
    tip := ⟨blockHash, height⟩
    largestFinalHeight := lastFinalHeight
    timer := { self.timer with height := height + 1, started := now }
    approvalTracking := self.approvalTracking.retain fun h _ =>
      decide (height - maxHeightsBeforeToStoreApprovals < h) &&
        decide (h ≤ height + maxHeightsAheadToStoreApprovals)
    endorsementPending := true }

/-- The calls a node makes on its `Doomslug`. -/
inductive DoomslugCall where
  | setTip (now : ℕ) (blockHash : CryptoHash) (height lastFinalHeight : ℕ)
  | processTimer (curTime : ℕ)

namespace DoomslugCall

def run : DoomslugCall → Doomslug → Doomslug × List IssuedApproval
  | .setTip now blockHash height lastFinalHeight, self =>
      (self.setTip now blockHash height lastFinalHeight, [])
  | .processTimer curTime, self => self.processTimer curTime

/-- The height a call sets the tip to. -/
def tipHeight? : DoomslugCall → Option ℕ
  | .setTip _ _ height _ => some height
  | .processTimer _ => none

end DoomslugCall

/-- A run of calls: the final state and every approval sent, in order. -/
def runCalls (self : Doomslug) : List DoomslugCall → Doomslug × List IssuedApproval
  | [] => (self, [])
  | call :: calls =>
      let first := call.run self
      let rest := first.1.runCalls calls
      (rest.1, first.2 ++ rest.2)

/-- The honest approver rule over the approvals a node sends, in order: an endorsement
targets a height above every approval before it and below every approval after it. -/
def HonestOrder (approvals : List IssuedApproval) : Prop :=
  approvals.Pairwise fun before after =>
    (before.inner.isEndorsement || after.inner.isEndorsement) = true →
      before.targetHeight < after.targetHeight

/-! ## What one call changes -/

@[simp] theorem isEndorsement_new (parentHash : CryptoHash) (parentHeight targetHeight : ℕ) :
    (ApprovalInner.new parentHash parentHeight targetHeight).isEndorsement =
      decide (targetHeight = parentHeight + 1) := by
  unfold ApprovalInner.new
  split_ifs with h <;> simp [ApprovalInner.isEndorsement, h]

/-- What `create_approval` returns targets the height it is given, and is an
endorsement exactly when that height is the tip's successor. -/
theorem mem_createApproval {self : Doomslug} {targetHeight : ℕ} {approval : IssuedApproval}
    (h : approval ∈ (self.createApproval targetHeight).toList) :
    approval.targetHeight = targetHeight ∧
      (approval.inner.isEndorsement = true ↔ targetHeight = self.tip.height + 1) := by
  obtain ⟨accountId, -, rfl⟩ := Option.mem_map.mp (Option.mem_toList.mp h)
  simp

theorem endorseTip_eq (self : Doomslug) :
    self.endorseTip =
      if self.largestTargetHeight ≤ self.tip.height then
        ({ self with largestTargetHeight := self.tip.height + 1 },
          (self.createApproval (self.tip.height + 1)).toList)
      else (self, []) := rfl

theorem endorseTip_frame (self : Doomslug) :
    ∃ largestTargetHeight, self.endorseTip.1 = { self with largestTargetHeight } := by
  rw [endorseTip_eq]
  split_ifs
  · exact ⟨_, rfl⟩
  · exact ⟨self.largestTargetHeight, rfl⟩

theorem processSkip_eq_some {self : Doomslug} {skipDelay curTime : ℕ}
    {skipped : Doomslug × List IssuedApproval}
    (h : self.processSkip skipDelay curTime = some skipped) :
    skipped = ({ self with
        largestTargetHeight := max (self.timer.height + 1) self.largestTargetHeight
        timer := { self.timer with
          started := self.timer.started + skipDelay
          height := self.timer.height + 1 } },
      (self.createApproval (self.timer.height + 1)).toList) := by
  unfold processSkip at h
  split_ifs at h
  exact (Option.some.inj h).symm

/-- One turn of the loop: the endorsement half and, when the timer has expired, the skip
half, or the end of the loop. -/
theorem processTimerLoop_succ (curTime iters : ℕ) (self : Doomslug) (ret : List IssuedApproval) :
    processTimerLoop curTime (iters + 1) self ret =
      match (self.processEndorsement curTime).1.processSkip
          (self.timer.getDelay (self.timer.height - self.largestFinalHeight)) curTime with
      | some skipped => processTimerLoop curTime iters skipped.1
          (ret ++ (self.processEndorsement curTime).2 ++ skipped.2)
      | none => ((self.processEndorsement curTime).1, ret ++ (self.processEndorsement curTime).2) :=
  rfl

/-! ## The largest target height never decreases -/

theorem largestTargetHeight_le_processEndorsement (self : Doomslug) (curTime : ℕ) :
    self.largestTargetHeight ≤ (self.processEndorsement curTime).1.largestTargetHeight := by
  unfold processEndorsement
  split_ifs
  · show self.largestTargetHeight ≤ self.endorseTip.1.largestTargetHeight
    rw [endorseTip_eq]
    split_ifs <;> dsimp only <;> omega
  · exact le_rfl

theorem largestTargetHeight_le_processTimerLoop (curTime iters : ℕ) (self : Doomslug)
    (ret : List IssuedApproval) :
    self.largestTargetHeight ≤ (processTimerLoop curTime iters self ret).1.largestTargetHeight := by
  induction iters generalizing self ret with
  | zero => exact le_rfl
  | succ iters ih =>
      have hendorse := largestTargetHeight_le_processEndorsement self curTime
      rw [processTimerLoop_succ]
      split
      · next skipped hskip =>
          refine le_trans hendorse (le_trans ?_ (ih skipped.1 _))
          rw [processSkip_eq_some hskip]
          exact le_max_right _ _
      · exact hendorse

theorem largestTargetHeight_le_run (call : DoomslugCall) (self : Doomslug) :
    self.largestTargetHeight ≤ (call.run self).1.largestTargetHeight := by
  cases call with
  | setTip now blockHash height lastFinalHeight => exact le_rfl
  | processTimer curTime => exact largestTargetHeight_le_processTimerLoop curTime _ self []

/-! ## What the loop leaves alone -/

theorem processEndorsement_frame (self : Doomslug) (curTime : ℕ) :
    ∃ largestTargetHeight timer endorsementPending, (self.processEndorsement curTime).1 =
      { self with largestTargetHeight, timer, endorsementPending } := by
  unfold processEndorsement
  split_ifs
  · obtain ⟨largestTargetHeight, heq⟩ := endorseTip_frame self
    refine ⟨largestTargetHeight, { self.timer with lastEndorsementSent := curTime }, false, ?_⟩
    show { self.endorseTip.1 with
      timer := { self.endorseTip.1.timer with lastEndorsementSent := curTime }
      endorsementPending := false } = _
    rw [heq]
  · exact ⟨self.largestTargetHeight, self.timer, self.endorsementPending, rfl⟩

/-- `process_timer` changes only the largest target height, the timer and whether an
endorsement is pending. -/
theorem processTimerLoop_frame (curTime iters : ℕ) (self : Doomslug) (ret : List IssuedApproval) :
    ∃ largestTargetHeight timer endorsementPending,
      (processTimerLoop curTime iters self ret).1 =
        { self with largestTargetHeight, timer, endorsementPending } := by
  induction iters generalizing self ret with
  | zero => exact ⟨self.largestTargetHeight, self.timer, self.endorsementPending, rfl⟩
  | succ iters ih =>
      obtain ⟨largestTargetHeight, timer, endorsementPending, hendorse⟩ :=
        processEndorsement_frame self curTime
      rw [processTimerLoop_succ]
      split
      · next skipped hskip =>
          obtain ⟨largestTargetHeight', timer', endorsementPending', hloop⟩ := ih skipped.1
            (ret ++ (self.processEndorsement curTime).2 ++ skipped.2)
          rw [hloop, processSkip_eq_some hskip, hendorse]
          exact ⟨largestTargetHeight', timer', endorsementPending', rfl⟩
      · exact ⟨largestTargetHeight, timer, endorsementPending, hendorse⟩

theorem processTimer_tip (self : Doomslug) (curTime : ℕ) :
    (self.processTimer curTime).1.tip = self.tip := by
  obtain ⟨largestTargetHeight, timer, endorsementPending, hloop⟩ :=
    processTimerLoop_frame curTime maxTimerIters self []
  rw [processTimer, hloop]

theorem processTimer_approvalTracking (self : Doomslug) (curTime : ℕ) :
    (self.processTimer curTime).1.approvalTracking = self.approvalTracking := by
  obtain ⟨largestTargetHeight, timer, endorsementPending, hloop⟩ :=
    processTimerLoop_frame curTime maxTimerIters self []
  rw [processTimer, hloop]

/-- After `set_tip`, the trackers kept are those of the heights from
`MAX_HEIGHTS_BEFORE_TO_STORE_APPROVALS` below the tip to
`MAX_HEIGHTS_AHEAD_TO_STORE_APPROVALS` above it. -/
theorem setTip_approvalTracking (self : Doomslug) (now : ℕ) (blockHash : CryptoHash)
    (height lastFinalHeight targetHeight : ℕ) :
    (self.setTip now blockHash height lastFinalHeight).approvalTracking.get? targetHeight =
      if height - maxHeightsBeforeToStoreApprovals < targetHeight ∧
          targetHeight ≤ height + maxHeightsAheadToStoreApprovals
      then self.approvalTracking.get? targetHeight else none := by
  simp only [setTip, BTreeMap.get?_retain]
  split_ifs with hwindow
  · cases self.approvalTracking.get? targetHeight <;> simp [Option.filter, hwindow]
  · cases self.approvalTracking.get? targetHeight <;> simp [Option.filter, hwindow]

/-! ## The honest approver rule -/

theorem honestOrder_toList (approval : Option IssuedApproval) : HonestOrder approval.toList := by
  cases approval <;> simp [HonestOrder]

theorem HonestOrder.append {sent approvals : List IssuedApproval} (hsent : HonestOrder sent)
    (happrovals : HonestOrder approvals)
    (hacross : ∀ before ∈ sent, ∀ after ∈ approvals,
      (before.inner.isEndorsement || after.inner.isEndorsement) = true →
        before.targetHeight < after.targetHeight) :
    HonestOrder (sent ++ approvals) :=
  List.pairwise_append.mpr ⟨hsent, happrovals, hacross⟩

/-- What the honest approver rule rests on, over a state and the approvals sent before
it: no approval targets a height above the largest target height, no endorsement one
above the tip's successor, and the timer is above the tip, except at the start, before
anything is sent or pending. -/
structure TimerInvariant (doomslug : Doomslug) (sent : List IssuedApproval) : Prop where
  honest : HonestOrder sent
  target_le : ∀ approval ∈ sent, approval.targetHeight ≤ doomslug.largestTargetHeight
  endorsement_le : ∀ approval ∈ sent, approval.inner.isEndorsement = true →
    approval.targetHeight ≤ doomslug.tip.height + 1
  tip_lt_timer : doomslug.tip.height < doomslug.timer.height ∨
    doomslug.timer.height = doomslug.tip.height ∧ sent = [] ∧ doomslug.endorsementPending = false

theorem timerInvariant_new (now largestTargetHeight endorsementDelay minDelay delayStep
    maxDelay : ℕ) (signer : Option AccountId) :
    TimerInvariant (new now largestTargetHeight endorsementDelay minDelay delayStep maxDelay signer)
      [] :=
  ⟨List.Pairwise.nil, by simp, by simp, .inr ⟨rfl, rfl, rfl⟩⟩

section Steps

variable {self : Doomslug} {sent : List IssuedApproval}

/-- A pending endorsement comes after `set_tip`, so the timer is above the tip. -/
theorem TimerInvariant.endorseTip (hinv : TimerInvariant self sent)
    (hpending : self.endorsementPending = true) :
    TimerInvariant self.endorseTip.1 (sent ++ self.endorseTip.2) := by
  have hlt : self.tip.height < self.timer.height := by
    rcases hinv.tip_lt_timer with hlt | ⟨-, -, hnot⟩
    · exact hlt
    · rw [hpending] at hnot
      exact absurd hnot (by decide)
  rw [endorseTip_eq]
  split_ifs with hle
  · -- the endorsement targets the tip's successor, above every approval sent before
    have hnew := fun approval (h : approval ∈ (self.createApproval (self.tip.height + 1)).toList) =>
      (mem_createApproval h).1
    refine ⟨hinv.honest.append (honestOrder_toList _) fun before hbefore after hafter _ => ?_,
      fun approval happroval => ?_, fun approval happroval hend => ?_, .inl hlt⟩
    · have := hinv.target_le before hbefore
      rw [hnew after hafter]
      omega
    · rcases List.mem_append.mp happroval with hold | hsent
      · have := hinv.target_le approval hold
        dsimp only
        omega
      · rw [hnew approval hsent]
    · rcases List.mem_append.mp happroval with hold | hsent
      · exact hinv.endorsement_le approval hold hend
      · rw [hnew approval hsent]
  · simpa using hinv

theorem TimerInvariant.processEndorsement (hinv : TimerInvariant self sent) (curTime : ℕ) :
    TimerInvariant (self.processEndorsement curTime).1 (sent ++ (self.processEndorsement curTime).2) := by
  unfold Doomslug.processEndorsement
  split_ifs with hdue
  · obtain ⟨honest, target_le, endorsement_le, tip_lt_timer⟩ := hinv.endorseTip hdue.1
    exact ⟨honest, target_le, endorsement_le, tip_lt_timer.imp id fun h => ⟨h.1, h.2.1, rfl⟩⟩
  · simpa using hinv

/-- A skip targets the height after the timer's, which is above the tip's successor once
the tip is set; before that, it is the first approval sent. -/
theorem TimerInvariant.processSkip (hinv : TimerInvariant self sent) {skipDelay curTime : ℕ}
    {skipped : Doomslug × List IssuedApproval}
    (hskip : self.processSkip skipDelay curTime = some skipped) :
    TimerInvariant skipped.1 (sent ++ skipped.2) := by
  rw [processSkip_eq_some hskip]
  have hnew := fun approval (h : approval ∈ (self.createApproval (self.timer.height + 1)).toList) =>
    mem_createApproval h
  refine ⟨hinv.honest.append (honestOrder_toList _) fun before hbefore after hafter hend => ?_,
    fun approval happroval => ?_, fun approval happroval hend => ?_, .inl ?_⟩
  · obtain ⟨htarget, hendorses⟩ := hnew after hafter
    rw [htarget]
    rcases hinv.tip_lt_timer with hlt | ⟨-, rfl, -⟩
    · rcases Bool.or_eq_true_iff.mp hend with hbefore_endorses | hafter_endorses
      · have := hinv.endorsement_le before hbefore hbefore_endorses
        omega
      · have := hendorses.mp hafter_endorses
        omega
    · exact absurd hbefore List.not_mem_nil
  · rcases List.mem_append.mp happroval with hold | hsent
    · have := hinv.target_le approval hold
      dsimp only
      omega
    · rw [(hnew approval hsent).1]
      dsimp only
      omega
  · rcases List.mem_append.mp happroval with hold | hsent
    · exact hinv.endorsement_le approval hold hend
    · obtain ⟨htarget, hendorses⟩ := hnew approval hsent
      rw [htarget, hendorses.mp hend]
  · dsimp only
    rcases hinv.tip_lt_timer with hlt | ⟨heq, -⟩ <;> omega

theorem TimerInvariant.processTimerLoop {curTime : ℕ} :
    ∀ {iters : ℕ} {self : Doomslug} {ret : List IssuedApproval},
      TimerInvariant self (sent ++ ret) →
        TimerInvariant (processTimerLoop curTime iters self ret).1
          (sent ++ (processTimerLoop curTime iters self ret).2)
  | 0, _, _, hinv => hinv
  | iters + 1, self, ret, hinv => by
      have hendorse := hinv.processEndorsement curTime
      rw [processTimerLoop_succ]
      split
      · next skipped hskip =>
          have hskipped := hendorse.processSkip hskip
          apply TimerInvariant.processTimerLoop
          simpa only [List.append_assoc] using hskipped
      · simpa only [List.append_assoc] using hendorse

theorem TimerInvariant.processTimer (hinv : TimerInvariant self sent) (curTime : ℕ) :
    TimerInvariant (self.processTimer curTime).1 (sent ++ (self.processTimer curTime).2) :=
  TimerInvariant.processTimerLoop (by simpa using hinv)

/-- `set_tip` to a height at or above the tip's restarts the timer above it. -/
theorem TimerInvariant.setTip (hinv : TimerInvariant self sent) (now : ℕ) (blockHash : CryptoHash)
    {height : ℕ} (lastFinalHeight : ℕ) (hheight : self.tip.height ≤ height) :
    TimerInvariant (self.setTip now blockHash height lastFinalHeight) sent := by
  refine ⟨hinv.honest, hinv.target_le, fun approval happroval hend => ?_, .inl ?_⟩
  · have := hinv.endorsement_le approval happroval hend
    dsimp only [Doomslug.setTip]
    omega
  · dsimp only [Doomslug.setTip]
    omega

end Steps

/-! ## Runs -/

theorem runCalls_cons (self : Doomslug) (call : DoomslugCall) (calls : List DoomslugCall) :
    self.runCalls (call :: calls) =
      (((call.run self).1.runCalls calls).1, (call.run self).2 ++ ((call.run self).1.runCalls calls).2) :=
  rfl

theorem runCalls_append (self : Doomslug) (calls₁ calls₂ : List DoomslugCall) :
    self.runCalls (calls₁ ++ calls₂) =
      (((self.runCalls calls₁).1.runCalls calls₂).1,
        (self.runCalls calls₁).2 ++ ((self.runCalls calls₁).1.runCalls calls₂).2) := by
  induction calls₁ generalizing self with
  | nil => simp [runCalls]
  | cons call calls₁ ih => simp [runCalls_cons, ih]

theorem largestTargetHeight_le_runCalls (self : Doomslug) (calls : List DoomslugCall) :
    self.largestTargetHeight ≤ (self.runCalls calls).1.largestTargetHeight := by
  induction calls generalizing self with
  | nil => exact le_rfl
  | cons call calls ih =>
      rw [runCalls_cons]
      exact le_trans (largestTargetHeight_le_run call self) (ih _)

/-- The invariant over a run whose tips come in increasing heights, none below the
current tip; induction on the calls, one step lemma for each. -/
theorem TimerInvariant.runCalls :
    ∀ {calls : List DoomslugCall} {self : Doomslug} {sent : List IssuedApproval},
      TimerInvariant self sent →
      (∀ height ∈ calls.filterMap DoomslugCall.tipHeight?, self.tip.height ≤ height) →
      (calls.filterMap DoomslugCall.tipHeight?).Pairwise (· < ·) →
      TimerInvariant (self.runCalls calls).1 (sent ++ (self.runCalls calls).2)
  | [], _, _, hinv, _, _ => by simpa [Doomslug.runCalls] using hinv
  | .setTip now blockHash height lastFinalHeight :: calls, self, sent, hinv, habove, hsorted => by
      simp only [List.filterMap_cons, DoomslugCall.tipHeight?, List.mem_cons,
        forall_eq_or_imp, List.pairwise_cons] at habove hsorted
      have hset := hinv.setTip now blockHash lastFinalHeight habove.1
      have hrest := TimerInvariant.runCalls hset
        (fun later hlater => le_of_lt (hsorted.1 later hlater)) hsorted.2
      simpa [runCalls_cons, DoomslugCall.run] using hrest
  | .processTimer curTime :: calls, self, sent, hinv, habove, hsorted => by
      simp only [List.filterMap_cons, DoomslugCall.tipHeight?] at habove hsorted
      have htimer := hinv.processTimer curTime
      have hrest := TimerInvariant.runCalls htimer
        (fun later hlater => (processTimer_tip self curTime).symm ▸ habove later hlater) hsorted
      simpa [runCalls_cons, DoomslugCall.run] using hrest

/-- The honest approver rule of Doomslug: on every run from `Doomslug::new` whose calls
to `set_tip` come in strictly increasing heights, every endorsement the node sends
targets a height above every approval it sent before and below every approval it sends
after; the largest target height never decreases and is at or above the target of
every approval sent. -/
theorem runCalls_honest (now largestTargetHeight endorsementDelay minDelay delayStep
    maxDelay : ℕ) (signer : Option AccountId) (calls : List DoomslugCall)
    (hheights : (calls.filterMap DoomslugCall.tipHeight?).Pairwise (· < ·)) :
    let doomslug := new now largestTargetHeight endorsementDelay minDelay delayStep maxDelay signer
    HonestOrder (doomslug.runCalls calls).2 ∧
      Monotone (fun k => (doomslug.runCalls (calls.take k)).1.largestTargetHeight) ∧
      ∀ approval ∈ (doomslug.runCalls calls).2,
        approval.targetHeight ≤ (doomslug.runCalls calls).1.largestTargetHeight := by
  intro doomslug
  have hinv : TimerInvariant (doomslug.runCalls calls).1 ([] ++ (doomslug.runCalls calls).2) :=
    (timerInvariant_new now largestTargetHeight endorsementDelay minDelay delayStep maxDelay
      signer).runCalls (fun height _ => Nat.zero_le height) hheights
  rw [List.nil_append] at hinv
  refine ⟨hinv.honest, fun j k hjk => ?_, hinv.target_le⟩
  have htake : calls.take k = calls.take j ++ (calls.take k).drop j := by
    conv_lhs => rw [← List.take_append_drop j (calls.take k)]
    rw [List.take_take, min_eq_left hjk]
  dsimp only
  rw [htake, runCalls_append]
  exact largestTargetHeight_le_runCalls _ _

theorem runCalls_honest_alice :
    ([DoomslugCall.setTip 0 .default 1 0, .processTimer 300, .setTip 400 .default 3 1,
        .processTimer 2000].filterMap DoomslugCall.tipHeight?).Pairwise (· < ·) ∧
      let doomslug := new 0 0 100 200 100 1000 (some "alice")
      let calls := [DoomslugCall.setTip 0 .default 1 0, .processTimer 300,
        .setTip 400 .default 3 1, .processTimer 2000]
      HonestOrder (doomslug.runCalls calls).2 ∧
        Monotone (fun k => (doomslug.runCalls (calls.take k)).1.largestTargetHeight) ∧
        ∀ approval ∈ (doomslug.runCalls calls).2,
          approval.targetHeight ≤ (doomslug.runCalls calls).1.largestTargetHeight :=
  ⟨by decide, runCalls_honest 0 0 100 200 100 1000 (some "alice") _ (by decide)⟩

/- The run above sends the endorsement of height 1 and a skip, then after the second tip
its endorsement and three skips. -/
example : (((new 0 0 100 200 100 1000 (some "alice")).runCalls
    [.setTip 0 .default 1 0, .processTimer 300, .setTip 400 .default 3 1, .processTimer 2000]).2.map
      fun approval => (approval.inner.isEndorsement, approval.targetHeight)) =
    [(true, 2), (false, 3), (true, 4), (false, 5), (false, 6), (false, 7)] := by
  decide

end Doomslug

end Nearcore
