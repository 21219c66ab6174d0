import PicotoolRs.Run.Command
import PicotoolRs.Run.InStep
import PicotoolRs.Run.Order

/-!
# PicotoolRs.Run.Failures

What becomes of a transfer that fails.

A phase of a run stops at its first failed transfer (`Ends`). The load makes it
the error of the run, except for the acknowledgement of the reboot; the detection
drops it and the run goes on with the conservative bound. So every failure is
accounted for, and a run meets at most two of them (`failures_accounted`).
-/

namespace PicotoolRs

open Lib Constants

/-- The last transfer failed with `e`, after all others had succeeded. -/
def FailedLast (tr : BusTrace) (e : DeviceError) : Prop :=
  ∃ init ev, tr = init ++ [ev] ∧ (∀ ev' ∈ init, Succeeded ev') ∧ ev.1.failure ev.2 = some e

theorem FailedLast.prepend {t tr : BusTrace} {e : DeviceError} (h : FailedLast tr e)
    (ht : ∀ ev ∈ t, Succeeded ev) : FailedLast (t ++ tr) e := by
  obtain ⟨init, ev, rfl, hinit, hev⟩ := h
  refine ⟨t ++ init, ev, by rw [List.append_assoc], ?_, hev⟩
  simp only [List.forall_mem_append]
  exact ⟨ht, hinit⟩

/-! ### Steps -/

/-- How steps that came to `o` end. -/
inductive Ends (tr : BusTrace) (o : Outcome LoadError Unit) : Prop
  /-- Every transfer succeeded. -/
  | clean : (∀ ev ∈ tr, Succeeded ev) → (∀ e, o ≠ .err (.device e)) → Ends tr o
  /-- The last transfer failed, and that is the error. -/
  | failed {e : DeviceError} : FailedLast tr e → o = .err (.device e) → Ends tr o
  /-- The last transfer failed, and it is the acknowledgement of the reboot. -/
  | unacknowledged {init : BusTrace} {ev : Request × Completion} : tr = init ++ [ev] →
      (∀ ev' ∈ init, Succeeded ev') → ¬ Succeeded ev → ev.1.op = .rebootAck → o = .ok () →
      Ends tr o

theorem Ends.prepend {t tr : BusTrace} {o : Outcome LoadError Unit} (h : Ends tr o)
    (ht : ∀ ev ∈ t, Succeeded ev) : Ends (t ++ tr) o := by
  cases h with
  | clean hs ho =>
      refine .clean ?_ ho
      simp only [List.forall_mem_append]
      exact ⟨ht, hs⟩
  | failed hf ho => exact .failed (hf.prepend ht) ho
  | @unacknowledged init ev heq hinit hev hop ho =>
      have happend : t ++ tr = t ++ init ++ [ev] := by rw [heq, List.append_assoc]
      refine .unacknowledged happend ?_ hev hop ho
      simp only [List.forall_mem_append]
      exact ⟨ht, hinit⟩

theorem StepRun.ends {d : Device} {step : Step} {tr : BusTrace} {o : Outcome LoadError Unit}
    (h : StepRun d step tr o) : Ends tr o := by
  have hstep := h
  cases h with
  | passed ha _ => exact .clean (ha.passed (by simp)) (by simp)
  | halted ha _ => exact .clean (ha.passed (by simp)) (by simp)
  | mismatch ha _ => exact .clean (ha.passed (by simp)) (by simp)
  | rejected ha _ =>
      obtain ⟨init, ev, heq, hinit, hev⟩ := ha.rejected
      exact .failed ⟨init, ev, heq, hinit, hev⟩ rfl
  | rebooting ha _ =>
      obtain ⟨init, ev, heq, hinit, hev⟩ := ha.rejected
      rcases hstep.of_failure (by simp [heq]) hev with ho | ⟨-, hop, -⟩
      · simp at ho
      · exact .unacknowledged heq hinit (by simp [Succeeded, hev]) hop rfl

/-- Steps, of which only the last may be a reboot, stop at their first failed
transfer. By induction on the steps: one that is followed by others is no reboot,
so all its transfers succeeded. -/
theorem steps_ends {steps : List Step} {d d' : Device} {tr : BusTrace}
    {o : Outcome LoadError Unit} (h : LoopRuns Step.perform steps d tr o d')
    (hfits : ∀ step ∈ steps, step.Fits) (hlast : .reboot ∉ steps.dropLast) : Ends tr o := by
  induction steps generalizing d tr with
  | nil =>
      cases h
      exact .clean (by simp) (by simp)
  | cons step steps ih =>
      rw [List.forall_mem_cons] at hfits
      cases h with
      | stop hstep _ =>
          obtain ⟨rfl, hrun⟩ := perform_runs hfits.1 hstep
          exact hrun.ends
      | cons hstep hsteps =>
          obtain ⟨rfl, hrun⟩ := perform_runs hfits.1 hstep
          by_cases hnil : steps = []
          · subst hnil
            cases hsteps
            rw [List.append_nil]
            exact hrun.ends
          · rw [List.dropLast_cons_of_ne_nil hnil, List.mem_cons, not_or] at hlast
            have hs := hrun.succeeded (Ne.symm hlast.1) (by simp)
            exact (ih hsteps hfits.2 hlast.2).prepend hs

/-- A detection stops at its first failed transfer, too. -/
theorem detection_ends {d d' : Device} {t : BusTrace} {r : Outcome DeviceError (Option UInt32)}
    (h : Device.detectFlashSize.Runs d t r d') :
    (∀ ev ∈ t, Succeeded ev) ∨ ∃ e, FailedLast t e ∧ r = .err e := by
  by_cases hr : ∃ e, r = .err e
  · obtain ⟨e, rfl⟩ := hr
    obtain ⟨o, hloop, hcase⟩ := detectFlashSize_runs h
    have ho : o = .err (.device e) := by
      rcases hcase with ⟨-, ho⟩ | ⟨-, _, hr⟩ | ⟨-, hr, -⟩
      · exact ho
      · simp at hr
      · simp at hr
    cases steps_ends hloop detectSteps_fits (by simp [detectSteps, stubSteps]) with
    | clean hs _ => exact .inl hs
    | failed hf ho' =>
        obtain rfl : _ = e := by simpa [ho'] using ho
        exact .inr ⟨_, hf, rfl⟩
    | unacknowledged _ _ _ _ ho' => simp [ho'] at ho
  · exact .inl (detection_succeeded h fun e he => hr ⟨e, he⟩)

/-! ### Errors that name a transfer -/

/-- The error is that of a transfer. -/
def DeviceError.OfTransfer : DeviceError → Prop
  | .transfer _ _ | .shortTransfer _ _ _ => True
  | _ => False

/-- The transport error that the run ended with. -/
def RunError.transport : RunError → Option DeviceError
  | .openingDevice e | .flashing (.device e) => some e
  | _ => none

theorem transport_reexec {w : World} {path : Str} {argv : List Str} {e : RunError}
    (h : reexecViaTermux w path argv = .err e) : e.transport = none := by
  unfold reexecViaTermux at h
  split at h
  · split at h <;> obtain rfl := Outcome.err.inj h <;> rfl
  · obtain rfl := Outcome.err.inj h
    rfl

/-- The computation fails without a transfer, if at all. -/
def FailsBefore {α : Type} (x : Outcome DeviceError α) : Prop := ∀ e, x = .err e → ¬ e.OfTransfer

theorem FailsBefore.bind {α β : Type} {x : Outcome DeviceError α} {f : α → Outcome DeviceError β}
    (hx : FailsBefore x) (hf : ∀ a, FailsBefore (f a)) : FailsBefore (x >>= f) := by
  intro e he
  rcases Outcome.bind_eq_err.mp he with he | ⟨a, -, he⟩
  · exact hx e he
  · exact hf a e he

theorem failsBefore_ok {α : Type} (a : α) : FailsBefore (.ok a) := fun e he => by simp at he

theorem failsBefore_err {α : Type} {e : DeviceError} (h : ¬ e.OfTransfer) :
    FailsBefore (.err e : Outcome DeviceError α) := fun _ he => Outcome.err.inj he ▸ h

theorem failsBefore_panic {α : Type} : FailsBefore (.panic : Outcome DeviceError α) :=
  fun e he => by simp at he

theorem failsBefore_ofUsb {α : Type} (x : Except UsbError α) : FailsBefore (ofUsb x) := by
  cases x with
  | ok a => exact failsBefore_ok a
  | error u => exact failsBefore_err not_false

theorem failsBefore_findPicoboot (usb : UsbDevice) : FailsBefore (findPicoboot usb) := by
  unfold findPicoboot
  split
  · exact failsBefore_err not_false
  · split
    · exact failsBefore_err not_false
    · split
      · exact failsBefore_ok _
      · exact failsBefore_err not_false

theorem failsBefore_connect (usb : UsbDevice) (verifyId : Bool) :
    FailsBefore (Device.connect usb verifyId) := by
  unfold Device.connect
  split
  · exact failsBefore_err not_false
  · exact (failsBefore_findPicoboot usb).bind fun _ => (failsBefore_ofUsb _).bind fun _ =>
      (failsBefore_ofUsb _).bind fun _ => (failsBefore_ofUsb _).bind fun _ => failsBefore_ok _

/-- Before there is a connection there is no transfer to fail. -/
theorem failsBefore_found (w : World) (verifyId : Bool) (fd : Option Int) :
    FailsBefore (Device.found w verifyId fd) := by
  unfold Device.found
  split
  · split
    · exact failsBefore_err not_false
    · split
      · exact failsBefore_panic
      · exact (failsBefore_ofUsb _).bind fun _ => failsBefore_connect _ _
  · split
    · exact failsBefore_err not_false
    · refine (failsBefore_ofUsb _).bind fun infos => ?_
      split
      · exact failsBefore_err not_false
      · exact (failsBefore_ofUsb _).bind fun _ => failsBefore_connect _ _

/-! ### Whole runs -/

/-- Every failed transfer of a run is accounted for. -/
structure Accounted (tr : BusTrace) (o : Outcome RunError Unit) : Prop where
  /-- An error of a transfer that the run ends with is that of its last transfer. -/
  named : ∀ e e', o = .err e → e.transport = some e' → e'.OfTransfer →
    ∃ init ev, tr = init ++ [ev] ∧ ev.1.failure ev.2 = some e'
  /-- A last transfer that failed is what the run ends with, unless it is the
  acknowledgement of a reboot, or the detection failed and the file was rejected. -/
  last : ∀ init ev e, tr = init ++ [ev] → ev.1.failure ev.2 = some e →
    (∃ e', o = .err e' ∧ e'.transport = some e) ∨ (ev.1.op = .rebootAck ∧ o = .ok ()) ∨
      ∃ path e', o = .err (.parsingFile path e')
  /-- A failed transfer that others follow is the first to fail, and flash has not
  been modified by then: it ended the detection. -/
  early : ∀ pre ev post, tr = pre ++ ev :: post → post ≠ [] → ¬ Succeeded ev →
    (∀ ev' ∈ pre, Succeeded ev') ∧ Harmless (pre ++ [ev])

/-- No transfer failed. -/
theorem Accounted.clean {tr : BusTrace} {o : Outcome RunError Unit}
    (hs : ∀ ev ∈ tr, Succeeded ev)
    (ho : ∀ e e', o = .err e → e.transport = some e' → ¬ e'.OfTransfer) : Accounted tr o where
  named e e' he he' hof := absurd hof (ho e e' he he')
  last init ev e htr hf := by
    have := hs ev (by simp [htr])
    simp [Succeeded, hf] at this
  early pre ev post htr _ hno := absurd (hs ev (by simp [htr])) hno

/-- A last transfer determines what is in front of it. -/
theorem eq_of_append_singleton {α : Type} {as bs : List α} {a b : α}
    (h : as ++ [a] = bs ++ [b]) : as = bs ∧ a = b := by
  obtain ⟨h₁, h₂⟩ := List.append_inj' h rfl
  exact ⟨h₁, List.singleton_inj.mp h₂⟩

/-- Before its last transfer nothing has failed. -/
theorem FailedLast.succeeded {tr pre post : BusTrace} {ev : Request × Completion} {e : DeviceError}
    (h : FailedLast tr e) (heq : tr = pre ++ ev :: post) (hpost : post ≠ []) : Succeeded ev := by
  obtain ⟨init, last, rfl, hinit, -⟩ := h
  obtain ⟨post', x, rfl⟩ := (List.eq_nil_or_concat' post).resolve_left hpost
  have hsplit : init ++ [last] = (pre ++ ev :: post') ++ [x] := by simpa using heq
  obtain ⟨rfl, -⟩ := eq_of_append_singleton hsplit
  exact hinit ev (by simp)

/-- The last transfer failed. -/
theorem Accounted.failed {tr : BusTrace} {o : Outcome RunError Unit} {e : DeviceError}
    (h : FailedLast tr e) (hnamed : ∀ e₁ e₂, o = .err e₁ → e₁.transport = some e₂ → e₂ = e)
    (ho : (∃ e', o = .err e' ∧ e'.transport = some e) ∨
      ∃ path e', o = .err (.parsingFile path e')) : Accounted tr o where
  named e₁ e₂ he₁ he₂ _ := by
    obtain rfl := hnamed e₁ e₂ he₁ he₂
    obtain ⟨init, ev, htr, -, hev⟩ := h
    exact ⟨init, ev, htr, hev⟩
  last init ev e' htr hf := by
    obtain ⟨init', ev', rfl, -, hev⟩ := h
    obtain ⟨rfl, rfl⟩ := eq_of_append_singleton htr
    obtain rfl : e = e' := Option.some.inj (hev.symm.trans hf)
    exact ho.imp_right .inr
  early pre ev post htr hpost hno := absurd (h.succeeded htr hpost) hno

/-- The error of a load names its last transfer. -/
theorem Ends.named {tr : BusTrace} {o : Outcome LoadError Unit} {e : RunError}
    {e' : DeviceError} (h : Ends tr o)
    (he : o.mapErr RunError.flashing = .err e) (he' : e.transport = some e') :
    ∃ init ev, tr = init ++ [ev] ∧ ev.1.failure ev.2 = some e' := by
  obtain ⟨le, rfl, rfl⟩ := Outcome.mapErr_eq_err.mp he
  cases le with
  | verifyMismatch addr => simp [RunError.transport] at he'
  | device e'' =>
      obtain rfl := Option.some.inj he'
      cases h with
      | clean _ ho => exact absurd rfl (ho e'')
      | unacknowledged _ _ _ _ ho => simp at ho
      | failed hf ho =>
          obtain ⟨init, ev, heq, -, hev⟩ := hf
          simp only [Outcome.err.injEq, LoadError.device.injEq] at ho
          exact ⟨init, ev, heq, ho ▸ hev⟩

/-- A load whose last transfer failed ends with that, unless it is over. -/
theorem Ends.last {init : BusTrace} {ev : Request × Completion} {e : DeviceError}
    {o : Outcome LoadError Unit} (h : Ends (init ++ [ev]) o)
    (hf : ev.1.failure ev.2 = some e) :
    o = .err (.device e) ∨ (ev.1.op = .rebootAck ∧ o = .ok ()) := by
  cases h with
  | clean hs _ =>
      have := hs ev (by simp)
      simp [Succeeded, hf] at this
  | @failed e' hlast ho =>
      obtain ⟨_, ev', heq, -, hev⟩ := hlast
      obtain ⟨-, rfl⟩ := eq_of_append_singleton heq
      obtain rfl : e' = e := Option.some.inj (hev.symm.trans hf)
      exact .inl ho
  | unacknowledged heq _ _ hop ho =>
      obtain ⟨-, rfl⟩ := eq_of_append_singleton heq
      exact .inr ⟨hop, ho⟩

/-- In a load only the last transfer fails. -/
theorem Ends.succeeded {tr pre post : BusTrace} {ev : Request × Completion}
    {o : Outcome LoadError Unit} (h : Ends tr o) (heq : tr = pre ++ ev :: post)
    (hpost : post ≠ []) : Succeeded ev := by
  cases h with
  | clean hs _ => exact hs ev (by simp [heq])
  | failed hlast _ => exact hlast.succeeded heq hpost
  | @unacknowledged init x hsplit hinit hno _ _ =>
      cases hf : x.1.failure x.2 with
      | none => exact absurd hf hno
      | some e => exact FailedLast.succeeded ⟨init, x, hsplit, hinit, hf⟩ heq hpost

/-- What a load does after transfers that have not modified flash, of which at most
the last one failed. -/
theorem Ends.accounted {t₁ t₂ : BusTrace} {o : Outcome LoadError Unit} (h : Ends t₂ o)
    (hne : t₂ ≠ []) (hharmless : Harmless t₁)
    (h₁ : (∀ ev ∈ t₁, Succeeded ev) ∨ ∃ e, FailedLast t₁ e) :
    Accounted (t₁ ++ t₂) (o.mapErr .flashing) where
  named e e' he he' _ := by
    obtain ⟨init, ev, rfl, hev⟩ := h.named he he'
    exact ⟨t₁ ++ init, ev, by rw [List.append_assoc], hev⟩
  last init ev e htr hf := by
    obtain ⟨init', x, rfl⟩ := (List.eq_nil_or_concat' t₂).resolve_left hne
    rw [← List.append_assoc] at htr
    obtain ⟨-, rfl⟩ := eq_of_append_singleton htr
    rcases h.last hf with rfl | ⟨hop, rfl⟩
    · exact .inl ⟨_, rfl, rfl⟩
    · exact .inr (.inl ⟨hop, rfl⟩)
  early pre ev post htr hpost hno := by
    have hload : ∀ c, t₂ ≠ c ++ ev :: post := fun c hc => hno (h.succeeded hc hpost)
    -- so it is in front of the load, and the last one there
    rcases List.append_eq_append_iff.mp htr with ⟨c, -, hc⟩ | ⟨c, rfl, hc⟩
    · exact absurd hc (hload c)
    · cases c with
      | nil => exact absurd hc.symm (hload [])
      | cons x c =>
          obtain ⟨rfl, rfl⟩ := List.cons.inj hc
          rcases h₁ with hs | ⟨e, hlast⟩
          · exact absurd (hs ev (by simp)) hno
          · by_cases hc : c = []
            · subst hc
              obtain ⟨init, y, heq, hinit, -⟩ := hlast
              obtain ⟨rfl, rfl⟩ := eq_of_append_singleton heq
              exact ⟨hinit, hharmless⟩
            · exact absurd (hlast.succeeded rfl hc) hno

/-- The transfers of a run that failed. -/
def failures (tr : BusTrace) : BusTrace := tr.filter fun ev => ¬ Succeeded ev

/-- One failure that others may follow, and one at the end. -/
theorem Accounted.length_failures_le {tr : BusTrace} {o : Outcome RunError Unit}
    (h : Accounted tr o) : (failures tr).length ≤ 2 := by
  have hnil : ∀ {t : BusTrace}, (∀ ev ∈ t, Succeeded ev) → failures t = [] := fun ht => by
    simpa [failures, List.filter_eq_nil_iff] using ht
  rcases List.eq_nil_or_concat' tr with rfl | ⟨init, last, rfl⟩
  · exact Nat.zero_le _
  have hinit : (failures init).length ≤ 1 := by
    by_cases hs : ∀ ev ∈ init, Succeeded ev
    · rw [hnil hs]
      exact Nat.zero_le _
    · simp only [not_forall] at hs
      obtain ⟨ev, hev, hno⟩ := hs
      obtain ⟨a, b, rfl⟩ := List.append_of_mem hev
      obtain ⟨ha, -⟩ := h.early a ev (b ++ [last]) (by simp) (by simp) hno
      have hb : ∀ ev' ∈ b, Succeeded ev' := by
        intro ev' hev'
        obtain ⟨b₁, b₂, rfl⟩ := List.append_of_mem hev'
        by_contra hno'
        exact hno ((h.early (a ++ ev :: b₁) ev' (b₂ ++ [last]) (by simp) (by simp) hno').1 ev
          (by simp))
      have hsplit : failures (a ++ ev :: b) = failures a ++ (failures [ev] ++ failures b) := by
        simp [failures, List.filter_append, hno]
      rw [hsplit, hnil ha, hnil hb, List.nil_append, List.append_nil]
      exact List.length_filter_le _ _
  have hlast : (failures [last]).length ≤ 1 := List.length_filter_le _ _
  rw [failures, List.filter_append, List.length_append]
  exact Nat.add_le_add hinit hlast

/-- A run on the open device, after the reset. -/
theorem flashRun_accounted {path : Str} {bytes : List UInt8} {verify : Bool} {d : Device}
    {c : Completion} {t : BusTrace} {o : Outcome RunError Unit} (hc : Succeeded (.reset d, c))
    (h : FlashRun path bytes verify d t o) : Accounted ((.reset d, c) :: t) o := by
  have hreset : ∀ ev ∈ [(Request.reset d, c)], Succeeded ev := by simpa using hc
  have hopening : NoPackets [(Request.reset d, c)] := by
    simp [NoPackets, Request.IsPacket]
  cases h with
  | panicked hdetect =>
      have hs := detection_succeeded hdetect (by simp)
      exact .clean (List.forall_mem_cons.mpr ⟨hc, hs⟩) (by simp)
  | rejected hdetect _ _ =>
      have hparsing : ∀ {path e e₁ e₂}, (.err (.parsingFile path e) : Outcome RunError Unit) =
          .err e₁ → e₁.transport ≠ some e₂ := by
        intro path e e₁ e₂ he
        obtain rfl := Outcome.err.inj he
        simp [RunError.transport]
      rcases detection_ends hdetect with hs | ⟨e, hlast, -⟩
      · refine .clean (List.forall_mem_cons.mpr ⟨hc, hs⟩) fun e₁ e₂ he₁ he₂ => ?_
        exact absurd he₂ (hparsing he₁)
      · refine .failed (hlast.prepend hreset) (fun e₁ e₂ he₁ he₂ => ?_) (.inr ⟨_, _, rfl⟩)
        exact absurd he₂ (hparsing he₁)
  | @loaded t₁ t₂ _ _ _ _ _ _ _ hdetect _ _ _ hload =>
      have hends := steps_ends hload (loadPlan_fits _ _ _) (loadPlan_dropLast _ _ _)
      have hne : t₂ ≠ [] := by
        obtain ⟨_, _, heq⟩ := steps_start hload trivial
        exact fun hnil => by simp [hnil] at heq
      have hbefore := hopening.harmless.append (detection_harmless hdetect)
      refine hends.accounted hne hbefore ?_
      rcases detection_ends hdetect with hs | ⟨e, hlast, -⟩
      · exact .inl (List.forall_mem_cons.mpr ⟨hc, hs⟩)
      · exact .inr ⟨e, hlast.prepend hreset⟩

/-- A run of the tool accounts for the failures it meets. -/
theorem runLoad_accounted {w : World} {argv : List Str} {args : LoadArgs} {s s' : Unit}
    {tr : BusTrace} {o : Outcome RunError Unit} (h : (runLoad w argv args).Runs s tr o s') :
    Accounted tr o := by
  cases runLoad_runs_iff.mp h with
  | @reexec path _ =>
      refine .clean (by simp) fun e e' he he' => ?_
      simp [transport_reexec he] at he'
  | unread _ _ =>
      refine .clean (by simp) fun e e' he he' => ?_
      obtain rfl := Outcome.err.inj he
      simp [RunError.transport] at he'
  | @unopened bytes t o _ _ hopen hno =>
      have hvoid : ∀ {e e'}, (o.mapErr RunError.openingDevice).void = .err e →
          e.transport = some e' → o = .err e' := by
        intro e e' he he'
        cases o with
        | ok d => exact absurd rfl (hno d)
        | panic => simp at he
        | err e₁ =>
            obtain rfl := Outcome.err.inj he
            rw [Option.some.inj he']
      cases hopen with
      | failed _ =>
          exact .clean (by simp) fun e e' he he' => failsBefore_found _ _ _ _ (hvoid he he')
      | opened _ _ => exact absurd rfl (hno _)
      | refused _ hf =>
          refine .failed ⟨[], _, rfl, by simp, hf⟩ ?_ (.inl ⟨_, rfl, rfl⟩)
          exact fun e₁ e₂ he₁ he₂ => (Outcome.err.inj (hvoid he₁ he₂)).symm
  | flashing _ _ _ hc hflash => exact flashRun_accounted hc (flashFile_runs hflash)

/-- Every run of the tool accounts for all failures it meets, and these are at most
two. -/
theorem failures_accounted {w : World} {argv : List Str} {args : LoadArgs} {s s' : Unit}
    {tr : BusTrace} {o : Outcome RunError Unit} (h : (runLoad w argv args).Runs s tr o s') :
    Accounted tr o ∧ (failures tr).length ≤ 2 :=
  ⟨runLoad_accounted h, (runLoad_accounted h).length_failures_le⟩

/-- A device that fails the acknowledgement of the stub and of the reboot. -/
def ackLost (r : Request) : Completion :=
  if r.op = .exec ∧ r.transfer.isIn ∨ r.op = .rebootAck then ⟨.error ⟨7⟩, 0, []⟩ else r.completed

/-- Over it, a run that meets both failures ends well. -/
theorem failures_accounted_ackLost :
    let args : LoadArgs := ⟨[], false, false, none, none⟩
    let run := (runLoad (oneDevice oneByteFile) [] args ()).exec ackLost
    run.2.1 = .ok () ∧ (failures run.1).length = 2 ∧
      Accounted run.1 run.2.1 ∧ (failures run.1).length ≤ 2 :=
  ⟨by decide +kernel, by decide +kernel, failures_accounted (Session.exec_runs ackLost _ _)⟩

end PicotoolRs
