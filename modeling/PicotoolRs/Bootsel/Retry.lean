import PicotoolRs.Bootsel.Complete

/-!
# PicotoolRs.Bootsel.Retry

The `load` command and a device with faults.

The device may start in any state, any transfer may fail with part of it done,
and the command may be cut off after any transfer. Flash changes only in the
sectors that the segments reach into all the same (`cut_contained`); on a healthy
board every byte of them is an old, an erased or a new one (`cut_partly`), and once
a run returns, the image is in flash, whatever runs there were before
(`Tries.flashed`).
-/

namespace PicotoolRs

open Lib Constants

/-! ### A run to cut off -/

/-- Flash of 2 MiB. -/
def smallChip : Board := chip (0xef, 0x40, 0x15) 0x200000

theorem smallChip_healthy : smallChip.Healthy := chip_working.toHealthy

/-- A device left in the middle of a read, outside XIP. -/
def leftBusy : Bootsel := ⟨.takesAck, false, false, fun _ => 0⟩

/-- A load of `oneByteFile` to a device that is not rebooting. -/
theorem exists_load (b : Bootsel) (hb : b.rebooting = false) :
    ∃ tr b', (runLoad (oneDevice oneByteFile) [] (verifiedLoad [])).Runs () tr (.ok ()) () ∧
      Peer.Serves smallChip.Reacts b tr b' ∧ b'.rebooting = true := by
  obtain ⟨tr, o, b', hrun, hserves⟩ :=
    runLoad_ends smallChip (oneDevice oneByteFile) [] (verifiedLoad []) b
  obtain ⟨rfl, hreboot, -⟩ := runLoad_loads chip_working chip_identifies
    (starts_oneDevice [] oneByteFile) hb (sectorBound_boundFor (0xef, 0x40, 0x15)) le_rfl
    (show _ ≤ flashStart.toNat + 0x200000 by decide)
    (show parse oneByteFile _ = .ok [⟨flashStart, [0]⟩] by decide +kernel) hrun hserves
  exact ⟨tr, b', hrun, hserves.mono fun _ _ _ _ => Board.Obeys.reacts, hreboot⟩

/-- The first `n` transfers of it. -/
theorem exists_cut (n : Nat) (b : Bootsel) (hb : b.rebooting = false) :
    ∃ tr b', (runLoad (oneDevice oneByteFile) [] (verifiedLoad [])).Cut () tr ∧
      Peer.Serves smallChip.Reacts b tr b' := by
  obtain ⟨tr, b', hrun, hserves, -⟩ := exists_load b hb
  rw [← List.take_append_drop n tr] at hrun hserves
  obtain ⟨b₁, hserves₁, -⟩ := Peer.serves_append.mp hserves
  exact ⟨_, b₁, ⟨_, _, _, hrun⟩, hserves₁⟩

section Cut

variable {board : Board} {tr : BusTrace} {b b' : Bootsel} {bytes : List UInt8} {verify : Bool}
  {a : Nat}

/-! ### Runs that are cut off -/

/-- Flash that a run has changed. -/
theorem Board.CutRun.contained (h : board.CutRun bytes verify tr b b') (hlocal : board.Local)
    (hb : b.stage.Harmless) (hflash : InFlash a) (ha : b'.mem a ≠ b.mem a) :
    ∃ segs, parse bytes flashEnd = .ok segs ∧ InSectors segs a := by
  cases h with
  | detecting hcut => exact absurd ((hcut.detection hb).1 hlocal a hflash) ha
  | loading hbound hparse hplan hdetect hload =>
      rw [← (hdetect.detection hb).1 hlocal a hflash] at ha
      exact ⟨_, parse_keeps hbound.below hparse,
        load_contained (parse_represents hparse) hbound hplan hlocal hload hflash ha⟩

/-- What a run has made of flash. -/
theorem Board.CutRun.partly (h : board.CutRun bytes verify tr b b') (hboard : board.Healthy)
    (hb : b.stage.Harmless) (hflash : InFlash a) (ha : b'.mem a ≠ b.mem a) :
    (∃ cmd, (commands tr).getLast? = some cmd ∧ cmd.Touches a) ∨
      ∃ segs, parse bytes flashEnd = .ok segs ∧ Partly segs b.mem b'.mem a := by
  cases h with
  | detecting hcut => exact absurd ((hcut.detection hb).1 hboard.local a hflash) ha
  | @loading t₁ t₂ _ b₁ _ _ segs _ hbound hparse hplan hdetect hload =>
      have hb₁ := (hdetect.detection hb).1 hboard.local a hflash
      rcases load_partly (parse_represents hparse) hbound hplan hboard hload hflash with
        ⟨cmd, hlast, htouch⟩ | hpartly
      · refine .inl ⟨cmd, ?_, htouch⟩
        rw [commands_append, List.getLast?_append, hlast]
        rfl
      · refine .inr ⟨segs, parse_keeps hbound.below hparse, ?_⟩
        rwa [Partly, ← hb₁]

variable {w : World} {argv : List Str} {args : LoadArgs} {s s' : Unit}

theorem runLoad_contained (hlocal : board.Local) (h : (runLoad w argv args).Cut s tr)
    (hserves : Peer.Serves board.Reacts b tr b') (hflash : InFlash a) (ha : b'.mem a ≠ b.mem a) :
    ∃ bytes segs, w.readFile args.file = .ok bytes ∧ parse bytes flashEnd = .ok segs ∧
      InSectors segs a := by
  rcases runLoad_cut h hserves with hsame | ⟨bytes, t, hbytes, -, hcut⟩
  · exact absurd (congrFun hsame.1 a) ha
  · obtain ⟨segs, hparse, hin⟩ := hcut.contained hlocal (by simp) hflash ha
    exact ⟨bytes, segs, hbytes, hparse, hin⟩

/-- Whatever state the device is in, whichever transfers fail and however much of
them is done, and wherever the command is cut off: if a board changes memory only
where it is asked to, flash changes only in the sectors that the segments reach
into, as the parser gives them for the conservative bound. -/
theorem cut_contained (hlocal : board.Local) (h : (runLoad w argv args).Cut s tr)
    (hserves : Peer.Serves board.Reacts b tr b') :
    (∀ a, InFlash a → b'.mem a = b.mem a) ∨
      ∃ bytes segs, w.readFile args.file = .ok bytes ∧ parse bytes flashEnd = .ok segs ∧
        ∀ a, InFlash a → b'.mem a ≠ b.mem a → InSectors segs a := by
  by_cases hsame : ∀ a, InFlash a → b'.mem a = b.mem a
  · exact .inl hsame
  · simp only [not_forall] at hsame
    obtain ⟨a, hflash, ha⟩ := hsame
    obtain ⟨bytes, segs, hbytes, hparse, -⟩ := runLoad_contained hlocal h hserves hflash ha
    refine .inr ⟨bytes, segs, hbytes, hparse, fun a hflash ha => ?_⟩
    obtain ⟨bytes', segs', hbytes', hparse', hin⟩ := runLoad_contained hlocal h hserves hflash ha
    obtain rfl := Except.ok.inj (hbytes.symm.trans hbytes')
    obtain rfl := Outcome.ok.inj (hparse.symm.trans hparse')
    exact hin

theorem cut_contained_oneByte :
    ∃ tr b', (runLoad (oneDevice oneByteFile) [] (verifiedLoad [])).Cut () tr ∧
      Peer.Serves smallChip.Reacts leftBusy tr b' ∧
      ((∀ a, InFlash a → b'.mem a = 0) ∨
        ∃ bytes segs, (oneDevice oneByteFile).readFile [] = .ok bytes ∧
          parse bytes flashEnd = .ok segs ∧
          ∀ a, InFlash a → b'.mem a ≠ 0 → InSectors segs a) := by
  obtain ⟨tr, b', hcut, hserves⟩ := exists_cut 20 leftBusy rfl
  exact ⟨tr, b', hcut, hserves, cut_contained smallChip_healthy.local hcut hserves⟩

/-- On a healthy board, a run that was cut off leaves every byte of flash an old
one, or in a sector that the segments reach into an erased or a new one, unless it
is one that the last command on the wire is for. -/
theorem cut_partly (hboard : board.Healthy) (h : (runLoad w argv args).Cut s tr)
    (hserves : Peer.Serves board.Reacts b tr b') (hflash : InFlash a) :
    b'.mem a = b.mem a ∨
      ∃ bytes segs, w.readFile args.file = .ok bytes ∧ parse bytes flashEnd = .ok segs ∧
        InSectors segs a ∧ (b'.mem a = Nor.erased ∨ (∃ s ∈ segs, s.toRun.Holds a (b'.mem a)) ∨
          ∃ cmd, (commands tr).getLast? = some cmd ∧ cmd.Touches a) := by
  by_cases ha : b'.mem a = b.mem a
  · exact .inl ha
  rcases runLoad_cut h hserves with hsame | ⟨bytes, t, hbytes, hcmds, hcut⟩
  · exact absurd (congrFun hsame.1 a) ha
  obtain ⟨segs, hparse, hin⟩ := hcut.contained hboard.local (by simp) hflash ha
  refine .inr ⟨bytes, segs, hbytes, hparse, hin, ?_⟩
  rcases hcut.partly hboard (by simp) hflash ha with
    hlast | ⟨segs', hparse', hold | ⟨-, herased | hnew⟩⟩
  · exact .inr (.inr (hcmds ▸ hlast))
  · exact absurd hold ha
  · exact .inl herased
  · obtain rfl := Outcome.ok.inj (hparse.symm.trans hparse')
    exact .inr (.inl hnew)

theorem cut_partly_oneByte :
    ∃ tr b', (runLoad (oneDevice oneByteFile) [] (verifiedLoad [])).Cut () tr ∧
      Peer.Serves smallChip.Reacts leftBusy tr b' ∧
      (b'.mem flashStart.toNat = 0 ∨
        ∃ bytes segs, (oneDevice oneByteFile).readFile [] = .ok bytes ∧
          parse bytes flashEnd = .ok segs ∧ InSectors segs flashStart.toNat ∧
          (b'.mem flashStart.toNat = Nor.erased ∨
            (∃ s ∈ segs, s.toRun.Holds flashStart.toNat (b'.mem flashStart.toNat)) ∨
            ∃ cmd, (commands tr).getLast? = some cmd ∧ cmd.Touches flashStart.toNat)) := by
  obtain ⟨tr, b', hcut, hserves⟩ := exists_cut 20 leftBusy rfl
  exact ⟨tr, b', hcut, hserves, cut_partly smallChip_healthy hcut hserves (by decide)⟩

/-! ### Runs that return -/

/-- A command that returns leaves the image. -/
theorem runLoad_flashed (hboard : board.Healthy)
    (h : (runLoad w argv args).Runs s tr (.ok ()) s')
    (hserves : Peer.Serves board.Reacts b tr b') :
    ∃ bytes segs, w.readFile args.file = .ok bytes ∧ parse bytes flashEnd = .ok segs ∧
      Flashed segs b.mem b'.mem := by
  obtain ⟨bytes, hbytes, hload⟩ := runLoad_loading h hserves (.inl rfl)
  generalize ho : Outcome.ok () = o at hload
  cases hload with
  | @of_load bound segs _ _ _ _ _ _ hb hparse hplan hload hserves hstage hkept =>
      obtain rfl := Outcome.mapErr_eq_ok.mp ho.symm
      have hflashed := load_flashed (parse_represents hparse) hb hplan hboard hload hserves hstage
      refine ⟨bytes, segs, hbytes, parse_keeps hb.below hparse, hflashed.payload,
        hflashed.erased, fun a hflash hout => ?_⟩
      rw [hflashed.unchanged a hflash hout, hkept hboard.local a hflash]

/-! ### Runs one after the other -/

/-- Any number of runs for the same file that were cut off or failed, whatever the
hosts. In between, the device may be reset or lose its power, and keeps its flash.
-/
inductive Board.Tries (board : Board) (bytes : List UInt8) : Bootsel → Bootsel → Prop
  | start {b b₁ : Bootsel} : (∀ a, InFlash a → b₁.mem a = b.mem a) → Tries board bytes b b₁
  | again {b b₁ b₂ b₃ : Bootsel} {w : World} {argv : List Str} {args : LoadArgs} {s : Unit}
      {tr : BusTrace} : Tries board bytes b b₁ → w.readFile args.file = .ok bytes →
      (runLoad w argv args).Cut s tr → Peer.Serves board.Reacts b₁ tr b₂ →
      (∀ a, InFlash a → b₃.mem a = b₂.mem a) → Tries board bytes b b₃

/-- However many runs were cut off or failed, flash outside the sectors that the
segments reach into is as it was. -/
theorem Board.Tries.contained (h : board.Tries bytes b b') (hlocal : board.Local)
    {segs : List Segment} (hparse : parse bytes flashEnd = .ok segs) :
    ∀ a, InFlash a → ¬ InSectors segs a → b'.mem a = b.mem a := by
  induction h with
  | start hkept => exact fun a hflash _ => hkept a hflash
  | again _ hbytes hcut hserves hkept ih =>
      intro a hflash hout
      rw [hkept a hflash, ← ih a hflash hout]
      by_contra ha
      obtain ⟨bytes', segs', hbytes', hparse', hin⟩ :=
        runLoad_contained hlocal hcut hserves hflash ha
      obtain rfl := Except.ok.inj (hbytes.symm.trans hbytes')
      obtain rfl := Outcome.ok.inj (hparse.symm.trans hparse')
      exact hout hin

/-- Once a run returns, the image is in flash and the rest of flash is as it was
before the first of any number of runs that were cut off or failed. -/
theorem Board.Tries.flashed (hboard : board.Healthy) {b₁ : Bootsel}
    (htries : board.Tries bytes b b₁)
    (hbytes : w.readFile args.file = .ok bytes)
    (h : (runLoad w argv args).Runs s tr (.ok ()) s')
    (hserves : Peer.Serves board.Reacts b₁ tr b') :
    ∃ segs, parse bytes flashEnd = .ok segs ∧ Flashed segs b.mem b'.mem := by
  obtain ⟨bytes', segs, hbytes', hparse, hflashed⟩ := runLoad_flashed hboard h hserves
  obtain rfl := Except.ok.inj (hbytes.symm.trans hbytes')
  refine ⟨segs, hparse, hflashed.payload, hflashed.erased, fun a hflash hout => ?_⟩
  rw [hflashed.unchanged a hflash hout, htries.contained hboard.local hparse a hflash hout]

end Cut

end PicotoolRs
