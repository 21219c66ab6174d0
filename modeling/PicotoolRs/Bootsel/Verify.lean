import PicotoolRs.Bootsel.Retry
import PicotoolRs.Load.Verify

/-!
# PicotoolRs.Bootsel.Verify

What `--verify` says about the memory of a device.

Nothing at all is asked of the board here: it may be worn, or write what it likes.
But after the last write nothing is asked of it any more, so that what was read
back is what is in memory in the end (`verified_in_memory`).
-/

namespace PicotoolRs

open Lib Constants

/-- The bytes of a piece are in memory. -/
def Held (m : Nor.Memory) (p : Segment) : Prop := content m p.addr p.data.length = p.data

/-- What comes after the last write asks for no change. -/
theorem quiet_closeSteps {segs : List Segment} {verify : Bool} :
    ∀ step ∈ closeSteps segs verify, step.cmd.job step.data = none :=
  forall_mem_closeSteps rfl (fun _ => rfl) rfl

/-- The steps after the last write of a load that verifies, without the reboot. -/
def compareSteps (segs : List Segment) : List Step :=
  .enterCmdXip :: (pieces segs).map .compare

theorem closeSteps_true (segs : List Segment) :
    closeSteps segs true = compareSteps segs ++ [.reboot] := rfl

theorem compared_compareSteps (segs : List Segment) :
    (compareSteps segs).filterMap Step.compared = pieces segs := by
  rw [compareSteps, List.filterMap_cons_none rfl, List.filterMap_map]
  exact List.filterMap_some

section Verify

variable {board : Board} {d d' : Device} {tr : BusTrace} {b b' : Bootsel}

/-- A comparison that passed has found the piece in memory. -/
theorem Board.Passed.held {p : Segment}
    (h : board.Passed (Step.compare p).cmd (Step.compare p).data tr b b')
    (hagrees : (Step.compare p).Agrees tr) (hfits : (Step.compare p).Fits) : Held b.mem p := by
  have hreceived := h.received _ _ rfl
  rw [U32.toNat_ofUsize hfits] at hreceived
  exact hreceived.symm.trans hagrees

/-- Steps that ask for no change leave memory as it was, with all pieces in it that
were compared. -/
theorem Board.PassedAll.quiet {steps : List Step} (h : board.PassedAll steps tr b b')
    (hquiet : ∀ step ∈ steps, step.cmd.job step.data = none) (hfits : ∀ step ∈ steps, step.Fits) :
    b'.mem = b.mem ∧ ∀ p ∈ steps.filterMap Step.compared, Held b.mem p := by
  induction h with
  | nil => simp
  | @cons step steps t₁ t₂ b b₁ b' hstep hagrees _ ih =>
      rw [List.forall_mem_cons] at hquiet hfits
      obtain ⟨hmem, hheld⟩ := ih hquiet.2 hfits.2
      have hsame := hstep.mem_eq hquiet.1
      rw [hsame] at hmem hheld
      refine ⟨hmem, ?_⟩
      cases step with
      | compare p => exact List.forall_mem_cons.mpr ⟨hstep.held hagrees hfits.1, hheld⟩
      | _ => exact hheld

/-- A last step that asks for no change leaves memory as it was, whatever its
outcome. -/
theorem StepRun.quiet {step : Step} {o : Outcome LoadError Unit} (h : StepRun d step tr o)
    (hquiet : step.cmd.job step.data = none) (hserves : Peer.Serves board.Reacts b tr b')
    (hb : b.stage = .idle) : b'.mem = b.mem := by
  obtain ⟨o', ha⟩ := h.attempt
  rw [← List.append_nil tr] at ha
  exact script_quiet hquiet ha.cut hserves hb

/-- Steps of which there is one leave the device idle. -/
theorem Board.PassedAll.idle {step : Step} {steps : List Step}
    (h : board.PassedAll (step :: steps) tr b b') : b'.stage = .idle := by
  cases h with
  | cons hstep _ hsteps =>
      rcases hsteps.stage with h | h
      · exact h.trans hstep.stage
      · exact h

/-! ### A load -/

variable {segs : List Segment} {erases : List (UInt32 × UInt32)}

/-- A load that returns has every piece in memory. -/
theorem load_held
    (h : LoopRuns Step.perform (loadPlan erases segs true) d tr (.ok ()) d')
    (hserves : Peer.Serves board.Reacts b tr b') (hb : b.stage.Harmless) :
    ∀ p ∈ pieces segs, Held b'.mem p := by
  have hfits := loadPlan_fits erases segs true
  have hlast := loadPlan_dropLast erases segs true
  rw [loadPlan_eq, closeSteps_true, ← List.append_assoc] at h hfits hlast
  rw [List.dropLast_concat, List.mem_append, not_or] at hlast
  rw [List.forall_mem_append, List.forall_mem_append] at hfits
  rcases h.split_append with ⟨d₂, t, t₃, rfl, h, hreboot⟩ | ⟨ho, -⟩
  swap
  · exact absurd rfl ho
  rcases h.split_append with ⟨d₁, t₁, t₂, rfl, hflash, hcompare⟩ | ⟨ho, -⟩
  swap
  · exact absurd rfl ho
  obtain ⟨b₂, hserves, hserves₃⟩ := Peer.serves_append.mp hserves
  obtain ⟨b₁, hserves₁, hserves₂⟩ := Peer.serves_append.mp hserves
  have hflashed := steps_passed hflash hfits.1.1 hlast.1 hserves₁ hb
  have hcompared := steps_passed hcompare hfits.1.2 hlast.2 hserves₂ (hflashed.harmless hb)
  have hquiet : ∀ step ∈ compareSteps segs, step.cmd.job step.data = none := fun step hstep =>
    quiet_closeSteps step (by rw [closeSteps_true]; exact List.mem_append_left _ hstep)
  obtain ⟨hmem, hheld⟩ := hcompared.quiet hquiet hfits.1.2
  rw [compared_compareSteps] at hheld
  have hrebooted : b'.mem = b₂.mem := by
    cases hreboot with
    | cons hstep hnil =>
        cases hnil
        rw [List.append_nil] at hserves₃
        obtain ⟨-, hrun⟩ := perform_runs (hfits.2 _ List.mem_cons_self) hstep
        exact hrun.quiet rfl hserves₃ hcompared.idle
    | stop _ ho => exact absurd rfl ho
  rw [hrebooted, hmem]
  exact hheld

/-- A mismatch is reported by a comparison, and the steps before it went through.
-/
theorem mismatch_at {steps : List Step} {addr : UInt32}
    (h : LoopRuns Step.perform steps d tr (.err (.verifyMismatch addr)) d')
    (hfits : ∀ step ∈ steps, step.Fits) :
    ∃ done p rest d₁ t₁ t₂, steps = done ++ .compare p :: rest ∧ tr = t₁ ++ t₂ ∧ p.addr = addr ∧
      LoopRuns Step.perform done d t₁ (.ok ()) d₁ ∧ received t₂ ≠ p.data ∧
      Attempt Request.failure Request.Stuck ((Step.compare p).script d₁.bump) t₂ (.ok ()) := by
  obtain ⟨done, step, rest, d₁, t₁, t₂, rfl, rfl, hdone, hstep⟩ := h.split_stop (by simp)
  obtain ⟨-, hrun⟩ := perform_runs (hfits step (by simp)) hstep
  cases hrun with
  | mismatch ha hne => exact ⟨done, _, rest, d₁, t₁, t₂, rfl, rfl, rfl, hdone, hne, ha⟩

/-- A load that reports a mismatch has all pieces in memory up to one that
differs. -/
theorem load_differs {addr : UInt32}
    (h : LoopRuns Step.perform (loadPlan erases segs true) d tr (.err (.verifyMismatch addr)) d')
    (hserves : Peer.Serves board.Reacts b tr b') (hb : b.stage.Harmless) :
    ∃ before p after, pieces segs = before ++ p :: after ∧ p.addr = addr ∧
      (∀ q ∈ before, Held b'.mem q) ∧ ¬ Held b'.mem p := by
  have hfits := loadPlan_fits erases segs true
  have hlast := loadPlan_dropLast erases segs true
  rw [loadPlan_eq] at h hfits hlast
  rw [List.dropLast_append_of_ne_nil (by simp [closeSteps]), List.mem_append, not_or] at hlast
  rw [List.forall_mem_append] at hfits
  rcases h.split_append with ⟨d₁, t₁, t₂, rfl, hflash, hclose⟩ | ⟨-, hflash⟩
  · obtain ⟨b₁, hserves₁, hserves₂⟩ := Peer.serves_append.mp hserves
    have hflashed := steps_passed hflash hfits.1 hlast.1 hserves₁ hb
    have hb₁ := hflashed.harmless hb
    obtain ⟨done, p, rest, d₂, u₁, u₂, hsplit, rfl, rfl, hdone, hne, ha⟩ :=
      mismatch_at hclose hfits.2
    obtain ⟨b₂, hserves₂, hserves₃⟩ := Peer.serves_append.mp hserves₂
    have hfits := hfits.2
    have hlast := hlast.2
    have hquiet : ∀ step ∈ closeSteps segs true, step.cmd.job step.data = none :=
      quiet_closeSteps
    have hcompared : (closeSteps segs true).filterMap Step.compared = pieces segs := by
      rw [closeSteps_true, List.filterMap_append, compared_compareSteps]
      exact List.append_nil _
    rw [hsplit] at hfits hlast hquiet hcompared
    rw [List.dropLast_append_of_ne_nil (by simp), List.mem_append, not_or] at hlast
    rw [List.forall_mem_append] at hfits hquiet
    have hpassed := steps_passed hdone hfits.1 hlast.1 hserves₂ hb₁
    obtain ⟨hmem, hheld⟩ := hpassed.quiet hquiet.1 hfits.1
    have hread := script_passed ha hserves₃ (hpassed.harmless hb₁)
    have hreceived := hread.received _ _ rfl
    rw [U32.toNat_ofUsize (hfits.2 _ List.mem_cons_self)] at hreceived
    have hsame : b'.mem = b₂.mem := Board.Passed.mem_eq hread rfl
    refine ⟨done.filterMap Step.compared, p, rest.filterMap Step.compared, ?_, rfl, ?_, ?_⟩
    · rw [← hcompared, List.filterMap_append]
      rfl
    · rw [hsame, hmem]
      exact hheld
    · rw [hsame]
      exact fun hp => hne (hreceived.trans hp)
  · obtain ⟨done, p, rest, _, _, _, hsplit, -⟩ := mismatch_at hflash hfits.1
    have hmem : Step.compare p ∈ flashSteps erases segs := by
      rw [hsplit]
      simp
    simp [flashSteps] at hmem

/-! ### The command -/

/-- The image is in memory, piece by piece. -/
theorem held_pieces {segs : List Segment} (hfits : FitsAddressSpace segs) {m : Nor.Memory}
    (h : ∀ p ∈ pieces segs, Held m p) : ∀ s ∈ segs, ∀ a v, s.toRun.Holds a v → m a = v := by
  intro s hs a v hv
  obtain ⟨p, hp, hpv⟩ := (holds_pieces hfits a v).mpr ⟨s, hs, hv⟩
  exact content_eq_iff.mp (h p hp) a v hpv

variable {w : World} {argv : List Str} {args : LoadArgs} {s s' : Unit}
  {o : Outcome RunError Unit}

/-- A load that verifies and returns has every byte of the image in memory,
whatever the board does; one that reports a mismatch has the image in memory up to
a piece that differs. -/
theorem verified_in_memory (hverify : args.verify = true)
    (h : (runLoad w argv args).Runs s tr o s') (hserves : Peer.Serves board.Reacts b tr b') :
    (o = .ok () → ∃ bytes segs, w.readFile args.file = .ok bytes ∧
      parse bytes flashEnd = .ok segs ∧ ∀ s ∈ segs, ∀ a v, s.toRun.Holds a v → b'.mem a = v) ∧
    ∀ addr, o = .err (.flashing (.verifyMismatch addr)) →
      ∃ bytes segs before p after, w.readFile args.file = .ok bytes ∧
        parse bytes flashEnd = .ok segs ∧ pieces segs = before ++ p :: after ∧ p.addr = addr ∧
        (∀ q ∈ before, Held b'.mem q) ∧ ¬ Held b'.mem p := by
  constructor
  · intro ho
    obtain ⟨bytes, hbytes, hload⟩ := runLoad_loading h hserves (.inl ho)
    cases hload with
    | @of_load bound segs _ _ _ _ _ _ hb hparse _ hload hserves hstage _ =>
        obtain rfl := Outcome.mapErr_eq_ok.mp ho
        rw [hverify] at hload
        have hfits := (parse_represents hparse).fitsAddressSpace
        exact ⟨bytes, segs, hbytes, parse_keeps hb.below hparse,
          held_pieces hfits (load_held hload hserves hstage)⟩
  · intro addr ho
    obtain ⟨bytes, hbytes, hload⟩ := runLoad_loading h hserves (.inr ⟨_, ho⟩)
    cases hload with
    | @of_load bound segs _ _ _ _ _ _ hb hparse _ hload hserves hstage _ =>
        obtain ⟨e, rfl, he⟩ := Outcome.mapErr_eq_err.mp ho
        obtain rfl := RunError.flashing.inj he
        rw [hverify] at hload
        obtain ⟨before, p, after, hsplit, hp, hbefore, hdiffers⟩ :=
          load_differs hload hserves hstage
        exact ⟨bytes, segs, before, p, after, hbytes, parse_keeps hb.below hparse, hsplit, hp,
          hbefore, hdiffers⟩

theorem verified_in_memory_oneByte :
    ∃ tr b', (runLoad (oneDevice oneByteFile) [] (verifiedLoad [])).Runs () tr (.ok ()) () ∧
      Peer.Serves smallChip.Reacts leftBusy tr b' ∧
      ∃ bytes segs, (oneDevice oneByteFile).readFile [] = .ok bytes ∧
        parse bytes flashEnd = .ok segs ∧ ∀ s ∈ segs, ∀ a v, s.toRun.Holds a v → b'.mem a = v := by
  obtain ⟨tr, b', hrun, hserves, -⟩ := exists_load leftBusy rfl
  exact ⟨tr, b', hrun, hserves, (verified_in_memory rfl hrun hserves).1 rfl⟩

end Verify

end PicotoolRs
