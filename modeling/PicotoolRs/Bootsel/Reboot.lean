import PicotoolRs.Bootsel.Verify

/-!
# PicotoolRs.Bootsel.Reboot

When the device reboots.

The reboot is the last step of a load, and the only one that reboots the device.
So wherever a run is cut off, and whatever became of its last transfers: a device
that reboots has got all of the image (`reboots_flashed`), and if the load
verifies, it has it in memory whatever the board does (`reboots_verified`).
-/

namespace PicotoolRs

open Lib Constants

theorem isReboot_cmd {step : Step} (h : step ≠ .reboot) : step.cmd.isReboot = false := by
  cases step with
  | reboot => exact absurd rfl h
  | _ => rfl

section Reboot

variable {board : Board} {steps : List Step} {tr : BusTrace} {b b' : Bootsel}

/-- Steps without a reboot do not reboot the device. -/
theorem Board.PassedAll.running (h : board.PassedAll steps tr b b') (hno : .reboot ∉ steps)
    (hb : b.rebooting = false) : b'.rebooting = false := by
  induction h with
  | nil => exact hb
  | cons hstep _ _ ih =>
      rw [List.mem_cons, not_or] at hno
      exact ih hno.2 (hstep.rebooting.trans (isReboot_cmd (Ne.symm hno.1)))

/-- If steps that were cut off have rebooted the device, the reboot was the last of
them, and all others have gone through. -/
theorem Board.CutAll.rebooted (h : board.CutAll steps tr b b') (hlast : .reboot ∉ steps.dropLast)
    (hb : b.rebooting = false) (hb' : b'.rebooting = true) :
    ∃ done t b₁, steps = done ++ [.reboot] ∧ board.PassedAll done t b b₁ ∧
      (done ≠ [] → b'.mem = b₁.mem) := by
  cases h with
  | @between done rest _ _ _ hsplit hdone =>
      subst hsplit
      have hmem : .reboot ∈ done := by
        by_contra hno
        simp [hdone.running hno hb] at hb'
      obtain rfl : rest = [] := by
        by_contra hne
        rw [List.dropLast_append_of_ne_nil hne] at hlast
        exact hlast (List.mem_append_left _ hmem)
      rw [List.append_nil] at hlast ⊢
      rcases List.eq_nil_or_concat' done with rfl | ⟨init, last, rfl⟩
      · simp at hmem
      · rw [List.dropLast_concat] at hlast
        obtain rfl : .reboot = last := by simpa [hlast] using hmem
        obtain ⟨t₁, t₂, b₁, -, hinit, hreboot⟩ := hdone.split
        refine ⟨init, t₁, b₁, rfl, hinit, fun _ => ?_⟩
        cases hreboot with
        | cons hone _ hnil =>
            cases hnil
            exact Board.Passed.mem_eq hone rfl
  | @within done rest step t₁ t₂ _ b₁ _ hsplit hdone _ hin hquiet =>
      subst hsplit
      rw [List.dropLast_append_of_ne_nil (by simp), List.mem_append, not_or] at hlast
      have hrunning := hdone.running hlast.1 hb
      obtain rfl : step = .reboot := by
        by_contra hne
        simp [hin.rebooting (isReboot_cmd hne), hrunning] at hb'
      obtain rfl : rest = [] := by
        by_contra hne
        rw [List.dropLast_cons_of_ne_nil hne] at hlast
        exact hlast.2 List.mem_cons_self
      refine ⟨done, t₁, b₁, rfl, hdone, fun hne => hquiet rfl ?_⟩
      cases done with
      | nil => exact absurd rfl hne
      | cons => exact hdone.idle

/-! ### A load -/

variable {segs : List Segment} {erases : List (UInt32 × UInt32)} {verify : Bool}

/-- A load that has rebooted the device has done all erases and writes, and found
every piece in memory if it verifies. Memory has not changed since. -/
theorem load_rebooted (h : board.CutAll (loadPlan erases segs verify) tr b b')
    (hb : b.rebooting = false) (hb' : b'.rebooting = true) :
    ∃ t b₁, board.PassedAll (flashSteps erases segs) t b b₁ ∧ b'.mem = b₁.mem ∧
      (verify = true → ∀ p ∈ pieces segs, Held b₁.mem p) := by
  obtain ⟨done, t, b₂, hplan, hdone, hsame⟩ :=
    h.rebooted (loadPlan_dropLast erases segs verify) hb hb'
  have hfits := loadPlan_fits erases segs verify
  have hclose : closeSteps segs verify =
      (if verify then compareSteps segs else []) ++ [.reboot] := rfl
  rw [hplan] at hfits
  rw [loadPlan_eq, hclose, ← List.append_assoc] at hplan
  obtain rfl := List.append_cancel_right hplan
  obtain ⟨t₁, t₂, b₁, -, hflash, hcompare⟩ := hdone.split
  have hquiet : ∀ step ∈ (if verify then compareSteps segs else []),
      step.cmd.job step.data = none := fun step hstep =>
    quiet_closeSteps step (by rw [hclose]; exact List.mem_append_left _ hstep)
  obtain ⟨hmem, hheld⟩ := hcompare.quiet hquiet fun s hs =>
    hfits s (List.mem_append_left _ (List.mem_append_right _ hs))
  refine ⟨t₁, b₁, hflash, (hsame (by simp [flashSteps])).trans hmem, fun hverify => ?_⟩
  rwa [if_pos hverify, compared_compareSteps] at hheld

/-! ### The command -/

variable {w : World} {argv : List Str} {args : LoadArgs} {s : Unit}

/-- A run that was cut off and has rebooted the device was in the load. -/
theorem runLoad_rebooted (h : (runLoad w argv args).Cut s tr)
    (hserves : Peer.Serves board.Reacts b tr b') (hb : b.rebooting = false)
    (hb' : b'.rebooting = true) :
    ∃ bytes bound segs erases t b₁, w.readFile args.file = .ok bytes ∧ SectorBound bound ∧
      parse bytes bound = .ok segs ∧ planErase segs = some erases ∧
      board.CutAll (loadPlan erases segs args.verify) t b₁ b' ∧ b₁.rebooting = false ∧
      (board.Local → ∀ a, InFlash a → b₁.mem a = b.mem a) := by
  rcases runLoad_cut h hserves with ⟨-, hsame⟩ | ⟨bytes, t, hbytes, -, hcut⟩
  · simp [hsame, hb] at hb'
  have hdetect : ∀ {t : BusTrace} {b₁ : Bootsel},
      board.CutAll detectSteps t { b with stage := .idle } b₁ → b₁.rebooting = false := by
    intro t b₁ hcut
    by_contra hne
    obtain ⟨done, _, _, hplan, -⟩ := hcut.rebooted
      (fun hmem => reboot_not_mem_detectSteps (List.dropLast_subset _ hmem)) hb
      (Bool.not_eq_false _ ▸ hne)
    exact reboot_not_mem_detectSteps (hplan ▸ by simp)
  cases hcut with
  | detecting hcut => simp [hdetect hcut] at hb'
  | @loading t₁ t₂ _ b₁ _ bound segs erases hbound hparse hplan hcut hload =>
      exact ⟨bytes, bound, segs, erases, t₂, b₁, hbytes, hbound, hparse, hplan, hload,
        hdetect hcut, (hcut.detection (by simp)).1⟩

/-- On a healthy board, a device that reboots after a run that was cut off has the
image in flash. -/
theorem reboots_flashed (hboard : board.Healthy) (h : (runLoad w argv args).Cut s tr)
    (hserves : Peer.Serves board.Reacts b tr b') (hb : b.rebooting = false)
    (hb' : b'.rebooting = true) :
    ∃ bytes segs, w.readFile args.file = .ok bytes ∧ parse bytes flashEnd = .ok segs ∧
      Flashed segs b.mem b'.mem := by
  obtain ⟨bytes, bound, segs, erases, t, b₁, hbytes, hbound, hparse, hplan, hload, hb₁, hkept⟩ :=
    runLoad_rebooted h hserves hb hb'
  obtain ⟨t₁, b₂, hflash, hmem, -⟩ := load_rebooted hload hb₁ hb'
  refine ⟨bytes, segs, hbytes, parse_keeps hbound.below hparse,
    flashed_of_applyAll (parse_represents hparse) hbound hplan fun a ha => ?_⟩
  rw [hmem, hflash.mem hboard ha]
  exact Nor.applyAll_congr (hkept hboard.local a ha) _

theorem reboots_flashed_oneByte :
    ∃ tr b', (runLoad (oneDevice oneByteFile) [] (verifiedLoad [])).Cut () tr ∧
      Peer.Serves smallChip.Reacts leftBusy tr b' ∧ b'.rebooting = true ∧
      ∃ bytes segs, (oneDevice oneByteFile).readFile [] = .ok bytes ∧
        parse bytes flashEnd = .ok segs ∧ Flashed segs leftBusy.mem b'.mem := by
  obtain ⟨tr, b', hrun, hserves, hreboot⟩ := exists_load leftBusy rfl
  rw [← List.append_nil tr] at hrun
  exact ⟨tr, b', ⟨_, _, _, hrun⟩, hserves, hreboot,
    reboots_flashed smallChip_healthy ⟨_, _, _, hrun⟩ hserves rfl hreboot⟩

/-- On any board, a device that reboots after a run with `--verify` that was cut
off has the image in memory. -/
theorem reboots_verified (hverify : args.verify = true) (h : (runLoad w argv args).Cut s tr)
    (hserves : Peer.Serves board.Reacts b tr b') (hb : b.rebooting = false)
    (hb' : b'.rebooting = true) :
    ∃ bytes segs, w.readFile args.file = .ok bytes ∧ parse bytes flashEnd = .ok segs ∧
      ∀ s ∈ segs, ∀ a v, s.toRun.Holds a v → b'.mem a = v := by
  obtain ⟨bytes, bound, segs, erases, t, b₁, hbytes, hbound, hparse, hplan, hload, hb₁, -⟩ :=
    runLoad_rebooted h hserves hb hb'
  obtain ⟨t₁, b₂, -, hmem, hheld⟩ := load_rebooted hload hb₁ hb'
  refine ⟨bytes, segs, hbytes, parse_keeps hbound.below hparse, ?_⟩
  rw [hmem]
  exact held_pieces (parse_represents hparse).fitsAddressSpace (hheld hverify)

theorem reboots_verified_oneByte :
    ∃ tr b', (runLoad (oneDevice oneByteFile) [] (verifiedLoad [])).Cut () tr ∧
      Peer.Serves smallChip.Reacts leftBusy tr b' ∧ b'.rebooting = true ∧
      ∃ bytes segs, (oneDevice oneByteFile).readFile [] = .ok bytes ∧
        parse bytes flashEnd = .ok segs ∧ ∀ s ∈ segs, ∀ a v, s.toRun.Holds a v → b'.mem a = v := by
  obtain ⟨tr, b', hrun, hserves, hreboot⟩ := exists_load leftBusy rfl
  rw [← List.append_nil tr] at hrun
  exact ⟨tr, b', ⟨_, _, _, hrun⟩, hserves, hreboot,
    reboots_verified rfl ⟨_, _, _, hrun⟩ hserves rfl hreboot⟩

end Reboot

end PicotoolRs
