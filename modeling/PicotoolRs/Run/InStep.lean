import PicotoolRs.Run.Flash

/-!
# PicotoolRs.Run.InStep

Whether host and device stay in step over a whole run.

Each command of a run is followed by the next only if it went through, with one
exception: a failed detection is swallowed, and the load goes on over the
conservative bound. If what failed was a data phase or an acknowledgement, the
device is left in the middle of a command, and the interface is not reset before
the next packet.
-/

namespace PicotoolRs

open Lib Constants

/-! ### The detection -/

/-- In the detection that opens the trace, no data phase and no acknowledgement
failed. Packets may have. -/
def DetectionAnswered (d : Device) (tr : BusTrace) : Prop :=
  ∀ t r d', t <+: tr → Device.detectFlashSize.Runs d t r d' →
    ∀ ev ∈ t, ¬ ev.1.IsPacket → Succeeded ev

section Detection

variable {d d' : Device} {t : BusTrace} {r : Outcome DeviceError (Option UInt32)}
  (h : Device.detectFlashSize.Runs d t r d')

include h

/-- Only one initial part of a trace is a detection. -/
theorem detectionAnswered_append (t' : BusTrace) :
    DetectionAnswered d (t ++ t') ↔ ∀ ev ∈ t, ¬ ev.1.IsPacket → Succeeded ev := by
  constructor
  · intro hans
    exact hans t r d' (List.prefix_append _ _) h
  · intro hall t₁ r₁ d₁ hpre h₁
    obtain ⟨rfl, -⟩ := h₁.eq_of_prefix h hpre (List.prefix_append _ _)
    exact hall

theorem detection_inStep : InStep t := by
  obtain ⟨o, hloop, -⟩ := detectFlashSize_runs h
  exact steps_inStep hloop detectSteps_fits (by simp [detectSteps, stubSteps]) []

/-- A detection that does not fail has all its transfers succeed. -/
theorem detection_succeeded (hr : ∀ e, r ≠ .err e) : ∀ ev ∈ t, Succeeded ev := by
  obtain ⟨o, hloop, hcase⟩ := detectFlashSize_runs h
  refine steps_succeeded hloop detectSteps_fits reboot_not_mem_detectSteps fun e ho => ?_
  rcases hcase with ⟨-, hvoid⟩ | ⟨hok, -⟩ | ⟨hok, -⟩
  · cases r with
    | err e' => exact hr e' rfl
    | ok size => simp [hvoid] at ho
    | panic => simp [hvoid] at ho
  · simp [hok] at ho
  · simp [hok] at ho

theorem detectionAnswered_of_ne_err (hr : ∀ e, r ≠ .err e) : DetectionAnswered d t := by
  have hall := detection_succeeded h hr
  have hans := (detectionAnswered_append h []).mpr fun ev hev _ => hall ev hev
  rwa [List.append_nil] at hans

/-- Unless it panicked, the detection leaves a command half-finished exactly if a
data phase or an acknowledgement failed. -/
theorem detection_pending (hr : r ≠ .panic) :
    (Link.start.after t).pending = none ↔ ∀ ev ∈ t, ¬ ev.1.IsPacket → Succeeded ev := by
  obtain ⟨o, hloop, hcase⟩ := detectFlashSize_runs h
  cases o with
  | err e =>
      refine steps_pending hloop detectSteps_fits reboot_not_mem_detectSteps (fun piece hp => ?_) []
      simp [detectSteps, stubSteps] at hp
  | ok u =>
      obtain ⟨xs, -, hl⟩ := steps_link hloop detectSteps_fits reboot_not_mem_detectSteps []
      have hall := steps_succeeded hloop detectSteps_fits reboot_not_mem_detectSteps (by simp)
      refine iff_of_true ?_ fun ev hev _ => hall ev hev
      rw [Link.start, hl]
  | panic =>
      rcases hcase with ⟨-, hvoid⟩ | ⟨hok, -⟩ | ⟨hok, -⟩
      · cases r with
        | ok size => simp at hvoid
        | err e => simp at hvoid
        | panic => exact absurd rfl hr
      · simp at hok
      · simp at hok

end Detection

/-! ### The whole run -/

/-- The packets of a load that starts in step are sent in step. -/
theorem load_inStep {segs : List Segment} {erases : List (UInt32 × UInt32)} {verify : Bool}
    {d d' : Device} {t : BusTrace} {o : Outcome LoadError Unit} {l : Link}
    (h : LoopRuns Step.perform (loadPlan erases segs verify) d t o d') :
    l.InStep t ↔ l.pending = none := by
  constructor
  · intro hstep
    -- the load starts with a packet
    obtain ⟨c, t', rfl⟩ := steps_start h trivial
    exact hstep [] _ t' rfl ⟨_, role_packet _ _⟩
  · intro hl
    obtain ⟨fin, pending⟩ := l
    obtain rfl : pending = none := hl
    exact steps_inStep h (loadPlan_fits _ _ _) (loadPlan_dropLast _ _ _) fin

/-- A run after the device is opened keeps in step if and only if no data phase
and no acknowledgement of its detection failed, or the file does not parse
against the conservative bound, so that no load follows the failure. -/
theorem inStep_iff {path : Str} {bytes : List UInt8} {verify : Bool} {d d' : Device}
    {tr : BusTrace} {o : Outcome RunError Unit}
    (h : (flashFile path bytes verify).Runs d tr o d') :
    InStep tr ↔ DetectionAnswered d tr ∨ ∀ segs, parse bytes flashEnd ≠ .ok segs := by
  cases flashFile_runs h with
  | panicked hdetect =>
      have hans := detectionAnswered_of_ne_err hdetect (by simp)
      exact iff_of_true (detection_inStep hdetect) (.inl hans)
  | @rejected _ r _ bound e hdetect hbound hparse =>
      refine iff_of_true (detection_inStep hdetect) ?_
      cases r with
      | err e' =>
          -- the detection failed, so the bound is the conservative one
          obtain rfl := hbound.fallback ⟨e', rfl⟩
          exact .inr (by simp [hparse])
      | ok size => exact .inl (detectionAnswered_of_ne_err hdetect (by simp))
      | panic => exact absurd rfl hbound.ne_panic
  | @loaded t₁ t₂ r _ _ bound segs _ _ hdetect hbound hparse _ hload =>
      rw [InStep, Link.inStep_append, load_inStep hload, detection_pending hdetect hbound.ne_panic,
        detectionAnswered_append hdetect]
      constructor
      · intro hstep
        exact .inl hstep.2
      · intro hans
        refine ⟨detection_inStep hdetect, ?_⟩
        rcases hans with hans | hno
        · exact hans
        · cases r with
          | err e' =>
              obtain rfl := hbound.fallback ⟨e', rfl⟩
              exact absurd hparse (hno segs)
          | ok size =>
              have hall := detection_succeeded hdetect (by simp)
              exact fun ev hev _ => hall ev hev
          | panic => exact absurd rfl hbound.ne_panic

/-- A device that completes every transfer but the acknowledgement of `exec`. -/
def execUnanswered (r : Request) : Completion :=
  match r.op, r.transfer with
  | .exec, .bulkIn _ => ⟨.error ⟨110⟩, 0, []⟩
  | _, _ => r.completed

/-- A file of one accepted block. -/
def oneBlockFile : List UInt8 :=
  fileBytes [.build uf2FlagFamilyIdPresent flashStart rp2040FamilyId [0xAA, 0x55] (by decide)]

/-- With `exec` unanswered in the detection, the load starts in the middle of a
command. -/
theorem execUnanswered_not_inStep :
    let run := (flashFile [] oneBlockFile false ⟨0, 64, 0⟩).exec execUnanswered
    (flashFile [] oneBlockFile false).Runs ⟨0, 64, 0⟩ run.1 run.2.1 run.2.2 ∧ ¬ InStep run.1 :=
  ⟨Session.exec_runs execUnanswered _ _, by decide +kernel⟩

theorem inStep_iff_execUnanswered :
    let run := (flashFile [] oneBlockFile false ⟨0, 64, 0⟩).exec execUnanswered
    InStep run.1 ↔
      DetectionAnswered ⟨0, 64, 0⟩ run.1 ∨ ∀ segs, parse oneBlockFile flashEnd ≠ .ok segs :=
  inStep_iff (Session.exec_runs execUnanswered _ _)

end PicotoolRs
