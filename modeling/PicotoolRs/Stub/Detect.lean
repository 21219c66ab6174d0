import PicotoolRs.Run.Detect
import PicotoolRs.Stub.Run

/-!
# PicotoolRs.Stub.Detect

The detection and the stub it runs.

The detection writes the stub to RAM, has it executed, and reads three bytes at
`resultAddr`. A device can answer with any three bytes, and whatever else it does, the
third is the capacity that is decoded (`detectFlashSize_decodes`). If the bytes are
what the stub leaves there, that is the low byte of the fourth frame
(`reads_jedecId`).
-/

namespace PicotoolRs

open Lib Lib.Thumb Constants

/-! ### What the detection receives -/

/-- Steps that do not read receive nothing. -/
theorem steps_received {steps : List Step} {d d' : Device} {tr : BusTrace}
    {o : Outcome LoadError Unit} (h : LoopRuns Step.perform steps d tr o d')
    (hfits : ∀ step ∈ steps, step.Fits)
    (hphase : ∀ step ∈ steps, ∀ n, step.cmd.dataPhase ≠ .deviceToHost n) : received tr = [] := by
  have hstep : ∀ {step : Step} {d : Device} {t : BusTrace} {o' : Outcome LoadError Unit},
      step ∈ steps → StepRun d step t o' → ∀ ev ∈ t, ev.1.kept ev.2 = [] := by
    intro step d t o' hmem hrun ev hev
    obtain ⟨_, ha⟩ := hrun.attempt
    exact kept_of_mem_script (ha.map_fst_prefix.subset (List.mem_map_of_mem hev))
      (hphase step hmem) _
  rw [received, List.flatMap_eq_nil_iff]
  clear hphase
  induction h with
  | nil => simp
  | cons h _ ih =>
      obtain ⟨rfl, hrun⟩ := perform_runs (hfits _ List.mem_cons_self) h
      rw [List.forall_mem_append]
      have hfits' := fun s hs => hfits s (List.mem_cons_of_mem _ hs)
      exact ⟨hstep List.mem_cons_self hrun, ih hfits' fun hs => hstep (List.mem_cons_of_mem _ hs)⟩
  | stop h _ =>
      obtain ⟨rfl, hrun⟩ := perform_runs (hfits _ List.mem_cons_self) h
      exact hstep List.mem_cons_self hrun

/-- A detection that gets through its steps has received what its read kept, and
decodes that. It gets through them if it returns, and also if its transfers succeed. -/
theorem detectFlashSize_received {d d' : Device} {tr : BusTrace}
    {r : Outcome DeviceError (Option UInt32)} (h : Device.detectFlashSize.Runs d tr r d')
    (hs : (∃ size, r = .ok size) ∨ 0 < d.inMaxPacket ∧ ∀ ev ∈ tr, Succeeded ev) :
    LoopRuns Step.perform detectSteps d tr (.ok ()) d' ∧
      (∃ d₁ c, (Request.inData d₁ 3 .readData commandTimeout, c) ∈ tr ∧
        received tr = c.buffer.take 3) ∧
      ((∃ id0 id1 id2 rest, received tr = id0 :: id1 :: id2 :: rest ∧
        r = .ok (flashSizeFromJedec (id0, id1, id2))) ∨ (received tr).length < 3) := by
  obtain ⟨o, hloop, ⟨hne, ho⟩ | ⟨rfl, d₁, t₁, t₂, id, rfl, hstub, hread, hdecode⟩⟩ :=
    detectFlashSize_split h
  · rcases hs with ⟨size, rfl⟩ | ⟨hmax, hs⟩
    · exact absurd ho hne
    · exact absurd (steps_ok_of_complete hloop detectSteps_fits hmax hs
        (by simp [detectSteps, stubSteps])) hne
  · have hnone : received t₁ = [] :=
      steps_received hstub (by simp [stubSteps, Step.Fits])
        (by simp [stubSteps, Step.cmd, Command.dataPhase])
    have hid : id = received t₂ := (Device.flashRead_runs (by decide) hread).2.2 id rfl
    rw [received, List.flatMap_append, ← received, ← received, hnone, List.nil_append, ← hid]
    obtain ⟨c₁, c₂, c₃, rfl, -, hkept⟩ := Device.flashRead_runs_ok hread
    refine ⟨hloop, ⟨d₁.bump, c₂, by simp, hkept⟩, ?_⟩
    obtain ⟨-, -, ⟨id0, id1, id2, rest, hrec, hr⟩ | ⟨-, hshort⟩⟩ := decodeId_runs hdecode
    · exact .inl ⟨id0, id1, id2, rest, hrec, hr⟩
    · exact .inr hshort

/-! ### What the detection makes of an id -/

/-- A device that completes every transfer, and sends `id` as data. -/
def answering (id : List UInt8) (r : Request) : Completion :=
  match r.transfer, r.op with
  | .bulkIn _, .readData => ⟨.ok (), id.length, id⟩
  | _, _ => r.completed

/-- Over such a device, with an id of three bytes, every transfer of the detection
succeeds. -/
theorem succeeded_answering (id0 id1 id2 : UInt8) {step : Step} (hstep : step ∈ detectSteps)
    (d : Device) : ∀ r ∈ step.script d, Succeeded (r, answering [id0, id1, id2] r) := by
  have hpacket : ∀ cmd : Command,
      Succeeded (cmd.packet d, answering [id0, id1, id2] (cmd.packet d)) := fun _ =>
    succeeded_iff.mpr ⟨rfl, rfl⟩
  simp only [detectSteps, stubSteps, List.mem_append, List.mem_cons, List.not_mem_nil,
    or_false] at hstep
  rcases hstep with (rfl | rfl | rfl | rfl) | rfl
  · exact List.forall_mem_cons.mpr ⟨hpacket _, List.forall_mem_singleton.mpr rfl⟩
  · exact List.forall_mem_cons.mpr ⟨hpacket _, List.forall_mem_singleton.mpr rfl⟩
  · exact List.forall_mem_cons.mpr ⟨hpacket _, List.forall_mem_cons.mpr
      ⟨succeeded_iff.mpr ⟨rfl, rfl⟩, List.forall_mem_singleton.mpr rfl⟩⟩
  · exact List.forall_mem_cons.mpr ⟨hpacket _, List.forall_mem_singleton.mpr rfl⟩
  · exact List.forall_mem_cons.mpr ⟨hpacket _, List.forall_mem_cons.mpr
      ⟨succeeded_iff.mpr ⟨rfl, Nat.le_refl 3⟩, List.forall_mem_singleton.mpr rfl⟩⟩

/-- What a detection over the connection `d` comes to if it reads back the bytes `id`.
-/
structure Decodes (d : Device) (id : List UInt8) (size : Option UInt32) : Prop where
  /-- It can read them back, and then returns the size. -/
  answered : 0 < d.inMaxPacket → ∃ tr d', Device.detectFlashSize.Runs d tr (.ok size) d' ∧
    (∀ ev ∈ tr, Succeeded ev) ∧ received tr = id
  /-- If its transfers succeed and these are the bytes, it returns the size. -/
  returns : 0 < d.inMaxPacket → ∀ tr o d', Device.detectFlashSize.Runs d tr o d' →
    (∀ ev ∈ tr, Succeeded ev) → received tr = id → o = .ok size
  /-- In any case that is what it returns, and it has sent the stub to its address,
  had it executed, and read back three bytes: five commands, all of them over. -/
  sound : ∀ tr r d', Device.detectFlashSize.Runs d tr (.ok r) d' → received tr = id →
    r = size ∧
    commands tr = [.exclusiveAccess .exclusive, .exitXip,
      .write stubAddr (U32.ofUsize flashIdStub.length), .exec stubAddr, .read resultAddr 3] ∧
    (Link.start.after tr).finished.map (fun x => (x.cmd, x.sent)) =
      [(.exclusiveAccess .exclusive, []), (.exitXip, []),
        (.write stubAddr (U32.ofUsize flashIdStub.length), flashIdStub), (.exec stubAddr, []),
        (.read resultAddr 3, [])]

/-- The exchanges of steps that went through. -/
theorem map_made {steps : List Step} {xs : List Exchange} (h : List.Forall₂ Step.Made steps xs) :
    xs.map (fun x => (x.cmd, x.sent)) = steps.map fun step => (step.cmd, step.data) := by
  induction h with
  | nil => rfl
  | cons hx _ ih => rw [List.map_cons, List.map_cons, ih, hx.cmd, hx.sent]

/-- A detection over a device that answers with an id of three bytes reads them back. -/
theorem detectFlashSize_answered {d : Device} (hmax : 0 < d.inMaxPacket) (id0 id1 id2 : UInt8) :
    ∃ tr o d', Device.detectFlashSize.Runs d tr o d' ∧ (∀ ev ∈ tr, Succeeded ev) ∧
      received tr = [id0, id1, id2] := by
  let run := (Device.detectFlashSize d).exec (answering [id0, id1, id2])
  have hrun : Device.detectFlashSize.Runs d run.1 run.2.1 run.2.2 := Session.exec_runs _ _ _
  have hanswered : ∀ ev ∈ run.1, ev.2 = answering [id0, id1, id2] ev.1 := Prog.exec_answered _ _
  have hs : ∀ ev ∈ run.1, Succeeded ev := by
    intro ev hev
    obtain ⟨_, hloop, -⟩ := detectFlashSize_split hrun
    obtain ⟨step, hstep, d₁, hscript⟩ := step_of_request hloop detectSteps_fits hev
    have hsucc := succeeded_answering id0 id1 id2 hstep d₁ ev.1 hscript
    rwa [← hanswered ev hev] at hsucc
  refine ⟨run.1, run.2.1, run.2.2, hrun, hs, ?_⟩
  obtain ⟨-, ⟨d₁, c, hc, hrec⟩, -⟩ := detectFlashSize_received hrun (.inr ⟨hmax, hs⟩)
  have hbuffer : c = ⟨.ok (), 3, [id0, id1, id2]⟩ := hanswered _ hc
  rw [hrec, hbuffer]
  rfl

/-- The detection decodes the third byte as the capacity. -/
theorem detectFlashSize_decodes (d : Device) (id0 id1 id2 : UInt8) :
    Decodes d [id0, id1, id2] (capacitySize id2) := by
  have hdecode : ∀ {tr : BusTrace} {o : Outcome DeviceError (Option UInt32)} {d' : Device},
      Device.detectFlashSize.Runs d tr o d' →
      ((∃ size, o = .ok size) ∨ 0 < d.inMaxPacket ∧ ∀ ev ∈ tr, Succeeded ev) →
      received tr = [id0, id1, id2] → o = .ok (capacitySize id2) := by
    intro tr o d' h hs hrec
    obtain ⟨-, -, ⟨id0', id1', id2', rest, hid, rfl⟩ | hshort⟩ := detectFlashSize_received h hs
    · rw [hrec] at hid
      simp only [List.cons.injEq] at hid
      obtain ⟨rfl, rfl, rfl, -⟩ := hid
      rw [flashSizeFromJedec_eq]
    · rw [hrec] at hshort
      exact absurd hshort (by simp)
  refine ⟨fun hmax => ?_, fun hmax tr o d' h hs hrec => ?_, fun tr r d' h hrec => ⟨?_, ?_⟩⟩
  · obtain ⟨tr, o, d', hrun, hs, hrec⟩ := detectFlashSize_answered hmax id0 id1 id2
    obtain rfl := hdecode hrun (.inr ⟨hmax, hs⟩) hrec
    exact ⟨tr, d', hrun, hs, hrec⟩
  · exact hdecode h (.inr ⟨hmax, hs⟩) hrec
  · exact Outcome.ok.inj (hdecode h (.inl ⟨r, rfl⟩) hrec)
  · obtain ⟨hloop, -⟩ := detectFlashSize_received h (.inl ⟨r, rfl⟩)
    obtain ⟨xs, hxs, hl⟩ := steps_link hloop detectSteps_fits reboot_not_mem_detectSteps []
    refine ⟨(steps_commands hloop detectSteps_fits).2 rfl, ?_⟩
    rw [Link.start, hl, List.nil_append, map_made hxs]
    rfl

/-! ### The detection over the stub -/

namespace Stub

/-- The stub, entered with a stack and a return address, returns to the caller
with the last three of four frames in memory, whatever the frames and however
long it has to poll. A detection that reads back those bytes decodes the last
frame as the capacity. -/
theorem reads_jedecId {s : State Ssi} {ws ls fs : List UInt32} {w f₀ f₁ f₂ f₃ : UInt32}
    (h : Entered s) (hws : ∀ x ∈ ws, x < 4) (hw : 4 ≤ w)
    (hdev : s.dev = ⟨ws ++ w :: ls, f₀ :: f₁ :: f₂ :: f₃ :: fs⟩) :
    ∃ s', Reaches s s' ∧ Returned s s' (f₁.toUInt8, f₂.toUInt8, f₃.toUInt8) ∧
      s'.mem.Holds stubAddr flashIdStub ∧ s'.dev = ⟨ls, fs⟩ ∧
      ∀ d, Decodes d [s'.mem resultAddr, s'.mem (resultAddr + 1), s'.mem (resultAddr + 2)]
        (capacitySize f₃.toUInt8) := by
  obtain ⟨s', hreach, hret, hdev'⟩ := returns h hws hw hdev
  refine ⟨s', hreach, hret, hret.stub h, hdev', fun d => ?_⟩
  rw [hret.manufacturer, hret.memoryType, hret.capacity]
  exact detectFlashSize_decodes d _ _ _

/-- A stack in SRAM, a caller in ROM, two readings that are too low, and the id
of a flash of 2 MiB. -/
def entry : State Ssi where
  regs r := if r = sp then 0x20041000 else if r = lr then 0x00000401 else 0xdeadbeef
  pc := stubAddr
  flags := ⟨true, false, true, false⟩
  mem := Mem.writeBytes (fun _ => 0) stubAddr flashIdStub
  dev := ⟨[0, 3, 4], [0xff, 0xef, 0x40, 0x15]⟩
  stores := []

theorem entered_entry : Entered entry where
  pc := rfl
  stub := by
    intro i b hi
    show Mem.writeBytes (fun _ => 0) stubAddr flashIdStub _ = b
    refine Mem.writeBytes_add ?_ hi
    have hlen : i < 62 := (List.getElem?_eq_some_iff.mp hi).1
    omega
  aligned := by decide
  free := by
    intro a ha
    have hframe := (Mem.inRange_iff (by decide)).mp ha
    have hat : (frame entry).toNat = 0x20040ff8 := by decide
    refine ⟨fun hin => ?_, fun hin => ?_, decide_eq_false fun hin => ?_⟩
    · have := (Mem.inRange_iff (by decide)).mp hin
      have hend : stubAddr.toNat + flashIdStub.length < 0x20040000 := by decide
      omega
    · have := (Mem.inRange_iff (by decide)).mp hin
      have hend : resultAddr.toNat + 3 < 0x20040000 := by decide
      omega
    · have := (Mem.inRange_iff (by decide)).mp hin
      have hend : Ssi.base.toNat + 0x100 < 0x20040000 := by decide
      omega
  thumb := by decide

/-- The stub is run over this state, and the detection over a device that answers what
is in memory then. -/
theorem reads_jedecId_entry :
    ∃ s', Reaches entry s' ∧ s'.pc = 0x400 ∧ s'.regs r4 = 0xdeadbeef ∧ s'.regs sp = 0x20041000 ∧
      s'.mem resultAddr = 0xef ∧ s'.mem (resultAddr + 1) = 0x40 ∧
      s'.mem (resultAddr + 2) = 0x15 ∧ s'.dev = ⟨[], []⟩ ∧
      let id := [s'.mem resultAddr, s'.mem (resultAddr + 1), s'.mem (resultAddr + 2)]
      ((Device.detectFlashSize ⟨0, 64, 0⟩).exec (answering id)).2.1 = .ok (some 0x200000) := by
  have hlow : ∀ x ∈ ([0, 3] : List UInt32), x < 4 := by
    intro x hx
    simp only [List.mem_cons, List.not_mem_nil, or_false] at hx
    rcases hx with rfl | rfl <;> decide
  obtain ⟨s', hreach, hret, -, hdev, hdecodes⟩ :=
    reads_jedecId entered_entry hlow (by decide) rfl
  refine ⟨s', hreach, hret.pc, hret.regs r4 (by decide) (by decide) (by decide),
    hret.regs sp (by decide) (by decide) (by decide), hret.manufacturer, hret.memoryType,
    hret.capacity, hdev, ?_⟩
  have hdecode := (hdecodes ⟨0, 64, 0⟩).returns (by decide)
  rw [hret.manufacturer, hret.memoryType, hret.capacity] at hdecode ⊢
  exact hdecode _ _ _ (Session.exec_runs _ _ _) (by decide +kernel) (by decide +kernel)

end Stub

end PicotoolRs
