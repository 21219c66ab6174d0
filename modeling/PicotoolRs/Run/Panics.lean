import PicotoolRs.Run.Failures

/-!
# PicotoolRs.Run.Panics

Where a run panics.

The source adds machine words, indexes buffers and divides by the maximum packet
size of an endpoint, and each of these may panic. In a run none does: the words
are those of segments below the bound of the parser, and `nusb` promises the rest.
What it promises is that an endpoint has a maximum packet size, and that a completed
transfer holds the bytes that it reports. What is left is the descriptor -1, of which
no `OwnedFd` can be made (`panics_iff`).
-/

namespace PicotoolRs

open Lib Constants

/-- On the open device. -/
theorem flashRun_ne_panic {path : Str} {bytes : List UInt8} {verify : Bool} {d : Device}
    {tr : BusTrace} {o : Outcome RunError Unit} (h : FlashRun path bytes verify d tr o)
    (hmax : 0 < d.inMaxPacket) (hconf : ∀ ev ∈ tr, Conforming ev) : o ≠ .panic := by
  cases h with
  | panicked hdetect => exact absurd rfl (detectFlashSize_ne_panic hmax hconf hdetect).1
  | rejected _ _ _ => simp
  | loaded hdetect _ _ _ hload =>
      simp only [List.forall_mem_append] at hconf
      obtain ⟨-, hd⟩ := detectFlashSize_ne_panic hmax hconf.1 hdetect
      rw [← hd] at hmax
      intro hpanic
      exact (steps_ne_panic hload (loadPlan_fits _ _ _) hmax).1 (Outcome.mapErr_eq_panic.mp hpanic)

/-- The command comes to take ownership of the descriptor -1: the file is read, and
the flag or the environment names that descriptor. -/
def InvalidFd (w : World) (args : LoadArgs) : Prop :=
  args.device = none ∧ (∃ bytes, w.readFile args.file = .ok bytes) ∧ w.platform ≠ .other ∧
    resolveFd w args.fd = some (-1)

/-- Whatever the arguments, the file, the environment and the device: a run panics
exactly if it comes to the descriptor -1, if the endpoint has a maximum packet size
and completed transfers hold the bytes that they report. -/
theorem panics_iff {w : World} {argv : List Str} {args : LoadArgs} {s s' : Unit}
    {tr : BusTrace} {o : Outcome RunError Unit}
    (hmax : ∀ d, Device.found w (!args.anyDevice) (resolveFd w args.fd) = .ok d →
      0 < d.inMaxPacket) (hconf : ∀ ev ∈ tr, Conforming ev)
    (h : (runLoad w argv args).Runs s tr o s') : o = .panic ↔ InvalidFd w args := by
  cases runLoad_runs_iff.mp h with
  | @reexec path hdevice =>
      obtain ⟨e, herr, -⟩ := reexecViaTermux_fails w path argv
      refine iff_of_false (by simp [herr]) fun hfd => ?_
      simp [hfd.1] at hdevice
  | unread _ herr =>
      refine iff_of_false (by simp) fun hfd => ?_
      obtain ⟨-, ⟨bytes, hok⟩, -⟩ := hfd
      simp [hok] at herr
  | @unopened bytes _ o hdevice hbytes hopen hno =>
      have hvoid : (o.mapErr RunError.openingDevice).void = .panic ↔ o = .panic := by
        cases o <;> simp
      have hpanic : Device.found w (!args.anyDevice) (resolveFd w args.fd) = .panic ↔
        w.platform ≠ .other ∧ resolveFd w args.fd = some (-1) := found_eq_panic
      rw [hvoid, InvalidFd, ← hpanic]
      cases hopen with
      | failed _ => exact ⟨fun hpanic => ⟨hdevice, ⟨bytes, hbytes⟩, hpanic⟩, fun hfd => hfd.2.2⟩
      | opened hfound _ => exact iff_of_false (by simp) fun hfd => by simp [hfound] at hfd
      | refused hfound _ => exact iff_of_false (by simp) fun hfd => by simp [hfound] at hfd
  | flashing _ _ hfound _ hflash =>
      refine iff_of_false ?_ fun hfd => ?_
      · exact flashRun_ne_panic (flashFile_runs hflash) (hmax _ hfound) fun ev hev =>
          hconf ev (List.mem_cons_of_mem _ hev)
      · simp [found_eq_panic.mpr hfd.2.2] at hfound

/-- A device that completes every transfer: a run that finds it by enumeration, and
one that is given the descriptor -1. -/
theorem panics_iff_oneDevice :
    let run fd := (runLoad (oneDevice oneByteFile) [] ⟨[], true, false, none, fd⟩ ()).exec
      Request.completed
    (run none).2.1 ≠ .panic ∧ (run (some (-1))).2.1 = .panic := by
  intro run
  have hfound : Device.found (oneDevice oneByteFile) true none = .ok ⟨0, 64, 0⟩ := by
    decide +kernel
  have hinvalid : Device.found (oneDevice oneByteFile) true (some (-1)) = .panic := rfl
  constructor
  · refine mt (panics_iff (fun d hd => ?_) ?_ (Session.exec_runs Request.completed
      (runLoad (oneDevice oneByteFile) [] ⟨[], true, false, none, none⟩) ())).mp ?_
    · obtain rfl := Outcome.ok.inj (hfound.symm.trans hd)
      decide
    · decide +kernel
    · exact fun hfd => absurd hfd.2.2.2 (by decide)
  · refine (panics_iff (fun d hd => ?_) ?_ (Session.exec_runs Request.completed
      (runLoad (oneDevice oneByteFile) [] ⟨[], true, false, none, some (-1)⟩) ())).mpr ?_
    · exact absurd (hinvalid.symm.trans hd) (by simp)
    · decide +kernel
    · exact ⟨rfl, ⟨_, rfl⟩, by decide, rfl⟩

end PicotoolRs
