import PicotoolRs.Run.Connect

/-!
# PicotoolRs.Run.Command

The runs of the `load` command, one by one.

`LoadRun` names the places where a run can end before the device is open, and
what is left to be done from there (`runLoad_runs_iff`). Until then the only
transfer is the reset of the interface. `StepTrace` is what is left of a run where
only its transfers count.
-/

namespace PicotoolRs

open Lib Constants

/-- The runs of `load`. -/
inductive LoadRun (w : World) (argv : List Str) (args : LoadArgs) :
    BusTrace → Outcome RunError Unit → Prop
  /-- It is handed over to `termux-usb`. -/
  | reexec {path : Str} : args.device = some path →
      LoadRun w argv args [] (reexecViaTermux w path argv)
  /-- The file cannot be read. -/
  | unread {e : IoError} : args.device = none → w.readFile args.file = .error e →
      LoadRun w argv args [] (.err (.readingFile args.file e))
  /-- The device cannot be opened. -/
  | unopened {bytes : List UInt8} {t : BusTrace} {o : Outcome DeviceError Device} :
      args.device = none → w.readFile args.file = .ok bytes →
      OpenRun (Device.found w (!args.anyDevice) (resolveFd w args.fd)) t o → (∀ d, o ≠ .ok d) →
      LoadRun w argv args t (o.mapErr .openingDevice).void
  /-- The file is flashed to the device. -/
  | flashing {bytes : List UInt8} {d d' : Device} {c : Completion} {t : BusTrace}
      {o : Outcome RunError Unit} :
      args.device = none → w.readFile args.file = .ok bytes →
      Device.found w (!args.anyDevice) (resolveFd w args.fd) = .ok d →
      Succeeded (.reset d, c) → (flashFile args.file bytes args.verify).Runs d t o d' →
      LoadRun w argv args ((.reset d, c) :: t) o

/-- The part of the command after the file is read. -/
def loadBytes (w : World) (args : LoadArgs) (bytes : List UInt8) :
    Session Request Completion Unit RunError Unit := do
  let device ← (Device.openDevice w (resolveFd w args.fd) !args.anyDevice).mapErr .openingDevice
  let ((), _) ← Session.withState device (flashFile args.file bytes args.verify)
  return ()

theorem loadBytes_runs_iff {w : World} {argv : List Str} {args : LoadArgs} {bytes : List UInt8}
    {s s' : Unit} {tr : BusTrace} {o : Outcome RunError Unit} (hdevice : args.device = none)
    (hbytes : w.readFile args.file = .ok bytes) :
    (loadBytes w args bytes).Runs s tr o s' ↔ LoadRun w argv args tr o := by
  constructor
  · intro h
    have hstop : ∀ {o₁ : Outcome DeviceError Device},
        (Device.openDevice w (resolveFd w args.fd) !args.anyDevice :
          Session Request Completion Unit _ _).Runs s tr o₁ s' → (∀ d, o₁ ≠ .ok d) →
        LoadRun w argv args tr (o₁.mapErr .openingDevice).void := fun hopen hno =>
      .unopened hdevice hbytes (openDevice_runs_iff.mp hopen).2 hno
    rcases Session.runs_bind.mp h with ⟨d, _, t₁, t₂, rfl, h₁, h₂⟩ | ⟨e, rfl, h₁⟩ | ⟨rfl, h₁⟩
    · obtain ⟨o₁, ho₁, hopen⟩ := Session.runs_mapErr.mp h₁
      obtain rfl := Outcome.mapErr_eq_ok.mp ho₁.symm
      obtain ⟨hfound, c, rfl, hc⟩ := openRun_ok_iff.mp (openDevice_runs_iff.mp hopen).2
      obtain ⟨o', d', hflash, ho⟩ := Session.runs_withState_bind_pure
        (show (Session.withState d (flashFile args.file bytes args.verify) >>=
          fun _ => pure ()).Runs _ t₂ o s' from h₂)
      obtain rfl : o = o' := by
        cases o' <;> exact ho
      exact .flashing hdevice hbytes hfound hc hflash
    · obtain ⟨o₁, ho₁, hopen⟩ := Session.runs_mapErr.mp h₁
      obtain ⟨e', rfl, rfl⟩ := Outcome.mapErr_eq_err.mp ho₁.symm
      exact hstop hopen (by simp)
    · obtain ⟨o₁, ho₁, hopen⟩ := Session.runs_mapErr.mp h₁
      obtain rfl := Outcome.mapErr_eq_panic.mp ho₁.symm
      exact hstop hopen (by simp)
  · intro h
    refine Session.runs_bind.mpr ?_
    cases h with
    | reexec hpath => simp [hdevice] at hpath
    | unread _ herr => simp [hbytes] at herr
    | @unopened _ _ o _ _ hopen hno =>
        have hrun : (Device.openDevice w (resolveFd w args.fd) !args.anyDevice :
            Session Request Completion Unit _ _).Runs s tr o s' :=
          openDevice_runs_iff.mpr ⟨rfl, hopen⟩
        cases o with
        | ok d => exact absurd rfl (hno d)
        | err e => exact .inr (.inl ⟨_, rfl, Session.runs_mapErr.mpr ⟨_, rfl, hrun⟩⟩)
        | panic => exact .inr (.inr ⟨rfl, Session.runs_mapErr.mpr ⟨_, rfl, hrun⟩⟩)
    | @flashing _ d d' c t o _ hbytes' hfound hc hflash =>
        obtain rfl := Except.ok.inj (hbytes.symm.trans hbytes')
        have hopen : (Device.openDevice w (resolveFd w args.fd) !args.anyDevice :
            Session Request Completion Unit _ _).Runs s [(.reset d, c)] (.ok d) s :=
          openDevice_runs_iff.mpr ⟨rfl, openRun_ok_iff.mpr ⟨hfound, c, rfl, hc⟩⟩
        refine .inl ⟨d, (), [_], t, rfl, Session.runs_mapErr.mpr ⟨_, rfl, hopen⟩, ?_⟩
        have hstate : (Session.withState d (flashFile args.file bytes args.verify) :
            Session Request Completion Unit _ _).Runs s t (o.bind fun a => .ok (a, d')) s' :=
          Session.runs_withState.mpr ⟨rfl, o, d', hflash, rfl⟩
        have hvoid := Session.runs_void hstate
        cases o <;> exact hvoid

/-- The command, from its arguments on. -/
theorem runLoad_runs_iff {w : World} {argv : List Str} {args : LoadArgs} {s s' : Unit}
    {tr : BusTrace} {o : Outcome RunError Unit} :
    (runLoad w argv args).Runs s tr o s' ↔ LoadRun w argv args tr o := by
  cases hdevice : args.device with
  | some path =>
      have hrun : runLoad w argv args = Session.ofOutcome (reexecViaTermux w path argv) := by
        simp only [runLoad, hdevice]
      rw [hrun, Session.runs_ofOutcome]
      constructor
      · intro h
        obtain ⟨rfl, rfl, -⟩ := h
        exact .reexec hdevice
      · intro h
        cases h with
        | reexec hpath =>
            obtain rfl := Option.some.inj (hdevice.symm.trans hpath)
            exact ⟨rfl, rfl, rfl⟩
        | unread hnone _ => simp [hdevice] at hnone
        | unopened hnone _ _ _ => simp [hdevice] at hnone
        | flashing hnone _ _ _ _ => simp [hdevice] at hnone
  | none =>
      cases hbytes : w.readFile args.file with
      | ok bytes =>
          rw [← loadBytes_runs_iff hdevice hbytes]
          simp only [runLoad, hdevice, hbytes]
          exact Iff.rfl
      | error e =>
          have hrun : runLoad w argv args =
              Session.ofOutcome (.err (.readingFile args.file e)) := by
            simp only [runLoad, hdevice, hbytes]
            rfl
          rw [hrun, Session.runs_ofOutcome]
          constructor
          · intro h
            obtain ⟨rfl, rfl, -⟩ := h
            exact .unread hdevice hbytes
          · intro h
            cases h with
            | reexec hpath => simp [hdevice] at hpath
            | unread _ herr =>
                obtain rfl := Except.error.inj (hbytes.symm.trans herr)
                exact ⟨rfl, rfl, rfl⟩
            | unopened _ hok _ _ => simp [hbytes] at hok
            | flashing _ hok _ _ _ => simp [hbytes] at hok

/-! ### The transfers -/

/-- The transfers of a run, step by step. -/
inductive StepTrace (w : World) (args : LoadArgs) : BusTrace → Prop
  | none : StepTrace w args []
  | reset {d : Device} {c : Completion} :
      Device.found w (!args.anyDevice) (resolveFd w args.fd) = .ok d →
      StepTrace w args [(.reset d, c)]
  | detecting {d d' : Device} {c : Completion} {t : BusTrace} {o : Outcome LoadError Unit} :
      Device.found w (!args.anyDevice) (resolveFd w args.fd) = .ok d →
      LoopRuns Step.perform detectSteps d t o d' → StepTrace w args ((.reset d, c) :: t)
  | loading {bytes : List UInt8} {d d₁ d₂ : Device} {c : Completion} {t₁ t₂ : BusTrace}
      {bound : UInt32} {segs : List Segment} {erases : List (UInt32 × UInt32)}
      {o₁ o₂ : Outcome LoadError Unit} :
      Device.found w (!args.anyDevice) (resolveFd w args.fd) = .ok d →
      LoopRuns Step.perform detectSteps d t₁ o₁ d₁ → w.readFile args.file = .ok bytes →
      SectorBound bound → parse bytes bound = .ok segs → planErase segs = some erases →
      LoopRuns Step.perform (loadPlan erases segs args.verify) d₁ t₂ o₂ d₂ →
      StepTrace w args ((.reset d, c) :: (t₁ ++ t₂))

theorem commands_reset (d : Device) (c : Completion) (tr : BusTrace) :
    commands ((.reset d, c) :: tr) = commands tr := rfl

theorem runLoad_steps {w : World} {argv : List Str} {args : LoadArgs} {s s' : Unit}
    {tr : BusTrace} {o : Outcome RunError Unit} (h : (runLoad w argv args).Runs s tr o s') :
    StepTrace w args tr := by
  cases runLoad_runs_iff.mp h with
  | reexec _ => exact .none
  | unread _ _ => exact .none
  | unopened _ _ hopen _ =>
      cases hopen with
      | failed _ => exact .none
      | opened hfound _ => exact .reset hfound
      | refused hfound _ => exact .reset hfound
  | flashing _ hbytes hfound _ hflash =>
      cases flashFile_runs hflash with
      | panicked hdetect =>
          obtain ⟨_, hloop, -⟩ := detectFlashSize_runs hdetect
          exact .detecting hfound hloop
      | rejected hdetect _ _ =>
          obtain ⟨_, hloop, -⟩ := detectFlashSize_runs hdetect
          exact .detecting hfound hloop
      | loaded hdetect hbound hparse hplan hload =>
          obtain ⟨_, hloop, -⟩ := detectFlashSize_runs hdetect
          exact .loading hfound hloop hbytes hbound.sector hparse hplan hload

end PicotoolRs
