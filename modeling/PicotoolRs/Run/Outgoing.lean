import PicotoolRs.Lib.Cut
import PicotoolRs.Run.Command
import PicotoolRs.Run.Fallback
import PicotoolRs.Run.Order

/-!
# PicotoolRs.Run.Outgoing

What a run sends.

The answers of the device decide how far a run gets, and nothing else. What it
sends on the OUT endpoint is the beginning of what the detection sends, followed
by the beginning of what the load of the file sends (`outgoing_determined`). The
latter is known from the file and `--verify` (`loadOutgoing`): not even the size
of the flash chip that the device reports is in it.
-/

namespace PicotoolRs

open Lib Constants

/-- What a transfer sends on the OUT endpoint. The token of a packet is left out. -/
inductive Outgoing
  | packet (cmd : Command)
  | data (buf : List UInt8)
  deriving Repr, DecidableEq

/-- What the transfer sends, if it is on the OUT endpoint. -/
def Request.outgoing (r : Request) : Option Outgoing :=
  match r.transfer with
  | .bulkOut buf =>
      match r.command with
      | some cmd => some (.packet cmd)
      | none => some (.data buf)
  | _ => none

/-- What is sent in a trace, in order. -/
def outgoing (tr : BusTrace) : List Outgoing := (tr.map Prod.fst).filterMap Request.outgoing

theorem outgoing_append (t₁ t₂ : BusTrace) : outgoing (t₁ ++ t₂) = outgoing t₁ ++ outgoing t₂ := by
  rw [outgoing, List.map_append, List.filterMap_append, ← outgoing, ← outgoing]

/-! ### Scripts -/

/-- What a command sends. A command that reads acknowledges with an empty transfer. -/
def Command.outgoing (cmd : Command) (data : List UInt8) : List Outgoing :=
  match cmd.dataPhase with
  | .none => [.packet cmd]
  | .hostToDevice _ => [.packet cmd, .data data]
  | .deviceToHost _ => [.packet cmd, .data []]

theorem outgoing_packet (d : Device) (cmd : Command) :
    (cmd.packet d).outgoing = some (.packet cmd) := by
  have hcommand : (cmd.packet d).command = some cmd := by
    rw [Request.command, role_packet]
  show (match (cmd.packet d).command with
    | some cmd => some (Outgoing.packet cmd)
    | none => some (.data (cmd.encode d.token))) = _
  rw [hcommand]

/-- What a script sends is the same on every connection. -/
theorem script_outgoing (d : Device) (cmd : Command) (data : List UInt8) :
    (cmd.script d data).filterMap Request.outgoing = cmd.outgoing data := by
  have hin : ∀ op timeout, (Request.inAck d op timeout).outgoing = none := fun _ _ => rfl
  rw [Command.script, List.filterMap_cons_some (outgoing_packet d cmd), Command.outgoing,
    Command.rest]
  cases hphase : cmd.dataPhase with
  | none => simp [hin]
  | hostToDevice n =>
      have hout : (Request.out data .writeData commandTimeout).outgoing = some (.data data) := rfl
      simp [hin, hout]
  | deviceToHost n =>
      have hread : cmd.ackOp = .readAck := by
        cases cmd <;> simp_all [Command.dataPhase, Command.ackOp]
      have hdata : (Request.inData d n.toNat .readData commandTimeout).outgoing = none := rfl
      have hack : (Request.outAck .readAck).outgoing = some (.data []) := rfl
      simp [hread, hdata, hack]

/-! ### Steps -/

/-- What a step sends. -/
def Step.outgoing (step : Step) : List Outgoing := step.cmd.outgoing step.data

/-- A step sends the beginning of what it has to, and all of it if it goes through. -/
theorem StepRun.outgoing {d : Device} {step : Step} {tr : BusTrace} {o : Outcome LoadError Unit}
    (h : StepRun d step tr o) :
    PicotoolRs.outgoing tr <+: step.outgoing ∧
      (o = .ok () → PicotoolRs.outgoing tr = step.outgoing) := by
  have hscript : (step.script d).filterMap Request.outgoing = step.outgoing :=
    script_outgoing d step.cmd step.data
  obtain ⟨o', ha⟩ := h.attempt
  have hpre := ha.map_fst_prefix.filterMap Request.outgoing
  rw [hscript] at hpre
  refine ⟨hpre, fun ho => ?_⟩
  cases h with
  | passed ha _ => rw [PicotoolRs.outgoing, ha.map_fst, hscript]
  | rebooting ha htwo =>
      -- the acknowledgement that failed is on the IN endpoint
      obtain ⟨ev₁, ev₂, rfl⟩ := htwo
      have hall := ha.map_fst_prefix.eq_of_length rfl
      rw [PicotoolRs.outgoing, hall, hscript]
  | _ => simp at ho

/-- Steps send what they have to in order, all of it if they go through. -/
theorem steps_outgoing {steps : List Step} {d d' : Device} {tr : BusTrace}
    {o : Outcome LoadError Unit} (h : LoopRuns Step.perform steps d tr o d')
    (hfits : ∀ step ∈ steps, step.Fits) :
    outgoing tr <+: steps.flatMap Step.outgoing ∧
      (o = .ok () → outgoing tr = steps.flatMap Step.outgoing) := by
  induction h with
  | nil => exact ⟨List.prefix_refl _, fun _ => rfl⟩
  | cons hstep _ ih =>
      rw [List.forall_mem_cons] at hfits
      obtain ⟨-, hrun⟩ := perform_runs hfits.1 hstep
      obtain ⟨hpre, hall⟩ := ih hfits.2
      rw [outgoing_append, hrun.outgoing.2 rfl, List.flatMap_cons]
      exact ⟨(List.prefix_append_right_inj _).mpr hpre, fun ho => by rw [hall ho]⟩
  | stop hstep ho =>
      obtain ⟨-, hrun⟩ := perform_runs (hfits _ List.mem_cons_self) hstep
      rw [List.flatMap_cons]
      exact ⟨hrun.outgoing.1.trans (List.prefix_append _ _), fun hok => absurd hok ho⟩

/-! ### Runs -/

/-- What the load of a file sends. -/
def loadOutgoing (bytes : List UInt8) (verify : Bool) : List Outgoing :=
  match parse bytes flashEnd with
  | .ok segs =>
      match planErase segs with
      | some erases => (loadPlan erases segs verify).flatMap Step.outgoing
      | none => []
  | _ => []

/-- The trace sends a part of the detection and then a part of the load, from their
beginnings on. -/
def SendsPart (bytes : List UInt8) (verify : Bool) (tr : BusTrace) : Prop :=
  ∃ probe load, outgoing tr = probe ++ load ∧
    probe <+: detectSteps.flatMap Step.outgoing ∧ load <+: loadOutgoing bytes verify

/-- The trace sends a part of the detection and then all of the load. -/
def SendsAll (bytes : List UInt8) (verify : Bool) (tr : BusTrace) : Prop :=
  ∃ probe, outgoing tr = probe ++ loadOutgoing bytes verify ∧
    probe <+: detectSteps.flatMap Step.outgoing

theorem SendsPart.left {bytes : List UInt8} {verify : Bool} {t₁ t₂ : BusTrace}
    (h : SendsPart bytes verify (t₁ ++ t₂)) : SendsPart bytes verify t₁ := by
  obtain ⟨probe, load, heq, hprobe, hload⟩ := h
  rw [outgoing_append] at heq
  rcases List.append_eq_append_iff.mp heq with ⟨u, rfl, -⟩ | ⟨u, heq₁, rfl⟩
  · refine ⟨outgoing t₁, [], (List.append_nil _).symm, ?_, List.nil_prefix⟩
    exact (List.prefix_append _ _).trans hprobe
  · exact ⟨probe, u, heq₁, hprobe, (List.prefix_append _ _).trans hload⟩

/-- On the open device. -/
theorem flashRun_sends {path : Str} {bytes : List UInt8} {verify : Bool} {d : Device}
    {tr : BusTrace} {o : Outcome RunError Unit} (h : FlashRun path bytes verify d tr o) :
    SendsPart bytes verify tr ∧ (o = .ok () → SendsAll bytes verify tr) := by
  have hdetect : ∀ {t : BusTrace} {r : Outcome DeviceError (Option UInt32)} {d₁ : Device},
      Device.detectFlashSize.Runs d t r d₁ →
      outgoing t <+: detectSteps.flatMap Step.outgoing := by
    intro t r d₁ hrun
    obtain ⟨_, hloop, -⟩ := detectFlashSize_runs hrun
    exact (steps_outgoing hloop detectSteps_fits).1
  have honly : ∀ {t : BusTrace} {r : Outcome DeviceError (Option UInt32)} {d₁ : Device},
      Device.detectFlashSize.Runs d t r d₁ → SendsPart bytes verify t := fun hrun =>
    ⟨_, [], (List.append_nil _).symm, hdetect hrun, List.nil_prefix⟩
  cases h with
  | panicked hrun => exact ⟨honly hrun, by simp⟩
  | rejected hrun _ _ => exact ⟨honly hrun, by simp⟩
  | @loaded t₁ t₂ _ _ _ bound segs erases _ hrun hbound hparse hplan hload =>
      -- the bound refuses files and changes none
      have hout : loadOutgoing bytes verify =
          (loadPlan erases segs verify).flatMap Step.outgoing := by
        rw [loadOutgoing, parse_keeps hbound.sector.below hparse]
        simp only [hplan]
      obtain ⟨hpre, hall⟩ := steps_outgoing hload (loadPlan_fits _ _ _)
      rw [← hout] at hpre hall
      refine ⟨⟨_, _, outgoing_append _ _, hdetect hrun, hpre⟩, fun ho => ?_⟩
      refine ⟨_, ?_, hdetect hrun⟩
      rw [outgoing_append, hall (Outcome.mapErr_eq_ok.mp ho)]

/-- Whatever the device answers, and wherever the run is cut off: what it sends is
the beginning of the detection and then the beginning of the load of the file, and
all of the load if it returns. -/
theorem outgoing_determined {w : World} {argv : List Str} {args : LoadArgs} {bytes : List UInt8}
    {s : Unit} {tr : BusTrace} (hbytes : w.readFile args.file = .ok bytes)
    (h : (runLoad w argv args).Cut s tr) :
    SendsPart bytes args.verify tr ∧
      ∀ s', (runLoad w argv args).Runs s tr (.ok ()) s' → SendsAll bytes args.verify tr := by
  have hrun : ∀ {s' : Unit} {t : BusTrace} {o : Outcome RunError Unit},
      (runLoad w argv args).Runs s t o s' →
      SendsPart bytes args.verify t ∧ (o = .ok () → SendsAll bytes args.verify t) := by
    intro s' t o h
    have hnone : SendsPart bytes args.verify [] := ⟨[], [], rfl, List.nil_prefix, List.nil_prefix⟩
    cases runLoad_runs_iff.mp h with
    | @reexec path _ =>
        obtain ⟨e, herr, -⟩ := reexecViaTermux_fails w path argv
        exact ⟨hnone, fun ho => by simp [herr] at ho⟩
    | unread _ herr => simp [hbytes] at herr
    | @unopened _ _ o _ _ hopen hno =>
        have hsilent : SendsPart bytes args.verify t := by
          cases hopen <;> exact hnone
        refine ⟨hsilent, fun ho => ?_⟩
        cases o with
        | ok d => exact absurd rfl (hno d)
        | err e => cases ho
        | panic => cases ho
    | flashing _ hbytes' _ _ hflash =>
        obtain rfl := Except.ok.inj (hbytes.symm.trans hbytes')
        -- the reset is not on the OUT endpoint
        have hsends := flashRun_sends (flashFile_runs hflash)
        exact hsends
  obtain ⟨t₂, o, s', hwhole⟩ := h
  exact ⟨(hrun hwhole).1.left, fun s' h => (hrun h).2 rfl⟩

/-- A device that completes every transfer. -/
theorem outgoing_determined_oneDevice :
    let args : LoadArgs := ⟨[], true, false, none, none⟩
    let run := (runLoad (oneDevice oneByteFile) [] args ()).exec Request.completed
    run.2.1 = .ok () ∧ SendsAll oneByteFile true run.1 := by
  intro args run
  have hread : (oneDevice oneByteFile).readFile args.file = .ok oneByteFile := rfl
  have hok : run.2.1 = .ok () := by decide +kernel
  have hrun := Session.exec_runs Request.completed (runLoad (oneDevice oneByteFile) [] args) ()
  refine ⟨hok, (outgoing_determined hread hrun.cut).2 run.2.2 ?_⟩
  rw [← hok]
  exact hrun

end PicotoolRs
