import PicotoolRs.Device.Link
import PicotoolRs.Load

/-!
# PicotoolRs.Load.Steps

The steps a flasher consists of, and what a run of such steps can look like.

`Step.perform` is a step as the source carries it out, and `StepRun` says, once
for all steps, what can come of it (`perform_runs`). A sequence of steps is
`forM`, so its runs are `LoopRuns`; `packets_in_order` is what the later proofs
use of them: whenever a packet is on the wire, it is the packet of the next step,
every step before it is over, and nothing is half-finished.
-/

namespace PicotoolRs

open Lib Constants

/-- A step of a flasher. A segment that is written or compared fits one data
transfer. -/
inductive Step
  | exclusiveAccess
  | exitXip
  | enterCmdXip
  | exec (addr : UInt32)
  | flashErase (addr size : UInt32)
  | flashWrite (piece : Segment)
  /-- Read, whatever is read. -/
  | flashRead (addr : UInt32) (len : Nat)
  /-- Read back a piece and compare. -/
  | compare (piece : Segment)
  | reboot
  deriving Repr, DecidableEq

namespace Step

/-- The command of the step. -/
def cmd : Step → Command
  | exclusiveAccess => .exclusiveAccess .exclusive
  | exitXip => .exitXip
  | enterCmdXip => .enterCmdXip
  | exec addr => .exec addr
  | flashErase addr size => .flashErase addr size
  | flashWrite piece => .write piece.addr (U32.ofUsize piece.data.length)
  | flashRead addr len => .read addr (U32.ofUsize len)
  | compare piece => .read piece.addr (U32.ofUsize piece.data.length)
  | reboot => .reboot 0 sramEnd rebootDelayMs

/-- The bytes of a data phase towards the device. -/
def data : Step → List UInt8
  | flashWrite piece => piece.data
  | _ => []

/-- The transfers of the step. -/
def script (d : Device) (step : Step) : List Request := step.cmd.script d step.data

/-- The step, as the source carries it out. -/
def perform : Step → Loader Unit
  | exclusiveAccess => Loader.run (Device.exclusiveAccess .exclusive)
  | exitXip => Loader.run Device.exitXip
  | enterCmdXip => Loader.run Device.enterCmdXip
  | exec addr => Loader.run (Device.exec addr)
  | flashErase addr size => Loader.run (Device.flashErase addr size)
  | flashWrite piece => Loader.run (Device.flashWrite piece.addr piece.data)
  | flashRead addr len => do
      let _ ← Loader.run (Device.flashRead addr len)
  | compare piece => do
      let read ← Loader.run (Device.flashRead piece.addr piece.data.length)
      if read ≠ piece.data then
        Session.throw (.verifyMismatch piece.addr)
  | reboot => Loader.run (Device.reboot 0 sramEnd rebootDelayMs)

/-- The length of what is read fits a command. -/
def Fits : Step → Prop
  | flashRead _ len => len < 2 ^ 32
  | compare piece => piece.data.length < 2 ^ 32
  | _ => True

/-- What was read is what was to be compared. -/
def Agrees (tr : BusTrace) : Step → Prop
  | compare piece => received tr = piece.data
  | _ => True

/-- The exchange has the step's command and carries its data. -/
structure Sent (step : Step) (x : Exchange) : Prop where
  cmd : x.cmd = step.cmd
  sent : x.sent = step.data

/-- The exchange is that of a step that went through. -/
structure Made (step : Step) (x : Exchange) : Prop extends Sent step x where
  agrees : ∀ piece, step = .compare piece → x.received = piece.data

end Step

/-! ### One step -/

/-- What can come of a step, on the connection `d` with its token drawn. -/
inductive StepRun (d : Device) : Step → BusTrace → Outcome LoadError Unit → Prop
  /-- It went through. -/
  | passed {step : Step} {tr : BusTrace} :
      Attempt Request.failure Request.Stuck (step.script d) tr (.ok ()) → step.Agrees tr →
      StepRun d step tr (.ok ())
  /-- A transfer failed, other than the acknowledgement of a reboot. -/
  | rejected {step : Step} {tr : BusTrace} {e : DeviceError} :
      Attempt Request.failure Request.Stuck (step.script d) tr (.err e) →
      (step = .reboot → ∃ c, tr = [(step.cmd.packet d, c)]) →
      StepRun d step tr (.err (.device e))
  /-- The maximum packet size is zero. -/
  | halted {step : Step} {tr : BusTrace} :
      Attempt Request.failure Request.Stuck (step.script d) tr .panic → step ≠ .reboot →
      StepRun d step tr .panic
  /-- What was read differs. -/
  | mismatch {piece : Segment} {tr : BusTrace} :
      Attempt Request.failure Request.Stuck ((Step.compare piece).script d) tr (.ok ()) →
      received tr ≠ piece.data → StepRun d (.compare piece) tr (.err (.verifyMismatch piece.addr))
  /-- A reboot was sent and not acknowledged. -/
  | rebooting {tr : BusTrace} {e : DeviceError} :
      Attempt Request.failure Request.Stuck (Step.reboot.script d) tr (.err e) →
      (∃ ev₁ ev₂, tr = [ev₁, ev₂]) → StepRun d .reboot tr (.ok ())

namespace StepRun

variable {d : Device} {step : Step} {tr : BusTrace} {o : Outcome LoadError Unit}

/-- In any case the step made an attempt at its script. -/
theorem attempt (h : StepRun d step tr o) :
    ∃ o', Attempt Request.failure Request.Stuck (step.script d) tr o' := by
  cases h with
  | passed h _ => exact ⟨_, h⟩
  | rejected h _ => exact ⟨_, h⟩
  | halted h _ => exact ⟨_, h⟩
  | mismatch h _ => exact ⟨_, h⟩
  | rebooting h _ => exact ⟨_, h⟩

/-- In any case it starts with its packet. -/
theorem start (h : StepRun d step tr o) : ∃ c t, tr = (step.cmd.packet d, c) :: t := by
  obtain ⟨o', ha⟩ := h.attempt
  cases ha with
  | next _ _ => exact ⟨_, _, rfl⟩
  | stop _ => exact ⟨_, _, rfl⟩
  | halt hs => simp [Request.Stuck, Command.packet, Request.out] at hs

/-- In any case its first transfer is its packet and no other transfer is one.
-/
theorem packet_first {pre post : BusTrace} {ev : Request × Completion}
    (h : StepRun d step (pre ++ ev :: post) o) (hev : ev.1.IsPacket) :
    pre = [] ∧ ev.1 = step.cmd.packet d := by
  obtain ⟨o', ha⟩ := h.attempt
  exact PicotoolRs.packet_first ha hev

end StepRun

/-- A method whose outcome is that of its transfers, as a step. -/
theorem stepRun_of_method {m : Host Unit} {step : Step} {d d' : Device} {tr : BusTrace}
    {o : Outcome LoadError Unit}
    (hm : ∀ o', m.Runs d tr o' d' →
      d' = d.bump ∧ Attempt Request.failure Request.Stuck (step.script d.bump) tr o')
    (hagrees : step.Agrees tr) (hno : step ≠ .reboot) (h : (Loader.run m).Runs d tr o d') :
    d' = d.bump ∧ StepRun d.bump step tr o := by
  obtain ⟨o', rfl, h'⟩ := Session.runs_mapErr.mp h
  obtain ⟨hd, ha⟩ := hm o' h'
  refine ⟨hd, ?_⟩
  cases o' with
  | ok u => exact .passed ha hagrees
  | err e => exact .rejected ha fun hr => absurd hr hno
  | panic => exact .halted ha hno

/-- A read that did not return ends the step it is part of. -/
theorem flashRead_failed {step : Step} {addr : UInt32} {len : Nat} {d d' : Device} {tr : BusTrace}
    {o : Outcome LoadError (List UInt8)} (hlen : len < 2 ^ 32)
    (h : (Loader.run (Device.flashRead addr len)).Runs d tr o d') (ho : ∀ data, o ≠ .ok data)
    (hscript : step.script d.bump = (Command.read addr (U32.ofUsize len)).script d.bump []) :
    d' = d.bump ∧ StepRun d.bump step tr o.void := by
  have hno : step ≠ .reboot := by
    intro heq
    subst heq
    simp [Step.script, Command.script, Command.rest, Command.dataPhase, Step.cmd] at hscript
  obtain ⟨o', rfl, h₁⟩ := Session.runs_mapErr.mp h
  obtain ⟨rfl, ha, -⟩ := Device.flashRead_runs hlen h₁
  rw [← hscript] at ha
  cases o' with
  | ok data => exact absurd rfl (ho data)
  | err e => exact ⟨rfl, .rejected ha fun hr => absurd hr hno⟩
  | panic => exact ⟨rfl, .halted ha hno⟩

theorem fetch_runs {addr : UInt32} {len : Nat} {d d' : Device} {tr : BusTrace}
    {o : Outcome LoadError Unit} (hfits : len < 2 ^ 32)
    (h : (Step.flashRead addr len).perform.Runs d tr o d') :
    d' = d.bump ∧ StepRun d.bump (.flashRead addr len) tr o := by
  rcases Session.runs_bind.mp h with ⟨read, d₁, t₁, t₂, rfl, h₁, h₂⟩ | ⟨e, rfl, h₁⟩ | ⟨rfl, h₁⟩
  · obtain ⟨o', ho, h₁'⟩ := Session.runs_mapErr.mp h₁
    obtain ⟨rfl, ha, -⟩ := Device.flashRead_runs hfits h₁'
    obtain rfl := Outcome.mapErr_eq_ok.mp ho.symm
    obtain ⟨rfl, rfl, rfl⟩ := Session.runs_pure.mp h₂
    rw [List.append_nil]
    exact ⟨rfl, .passed ha trivial⟩
  · exact flashRead_failed hfits h₁ (by simp) rfl
  · exact flashRead_failed hfits h₁ (by simp) rfl

theorem compare_runs {piece : Segment} {d d' : Device} {tr : BusTrace}
    {o : Outcome LoadError Unit} (hfits : piece.data.length < 2 ^ 32)
    (h : (Step.compare piece).perform.Runs d tr o d') :
    d' = d.bump ∧ StepRun d.bump (.compare piece) tr o := by
  rcases Session.runs_bind.mp h with ⟨read, d₁, t₁, t₂, rfl, h₁, h₂⟩ | ⟨e, rfl, h₁⟩ | ⟨rfl, h₁⟩
  · obtain ⟨o', ho, h₁⟩ := Session.runs_mapErr.mp h₁
    obtain ⟨rfl, ha, hread⟩ := Device.flashRead_runs hfits h₁
    obtain rfl := Outcome.mapErr_eq_ok.mp ho.symm
    obtain rfl := hread read rfl
    by_cases heq : received t₁ = piece.data
    · rw [if_neg (not_not.mpr heq)] at h₂
      obtain ⟨rfl, rfl, rfl⟩ := Session.runs_pure.mp h₂
      rw [List.append_nil]
      exact ⟨rfl, .passed ha heq⟩
    · rw [if_pos heq] at h₂
      obtain ⟨rfl, rfl, rfl⟩ := Session.runs_throw.mp h₂
      rw [List.append_nil]
      exact ⟨rfl, .mismatch ha heq⟩
  · exact flashRead_failed hfits h₁ (by simp) rfl
  · exact flashRead_failed hfits h₁ (by simp) rfl

theorem reboot_runs {d d' : Device} {tr : BusTrace} {o : Outcome LoadError Unit}
    (h : Step.reboot.perform.Runs d tr o d') : d' = d.bump ∧ StepRun d.bump .reboot tr o := by
  obtain ⟨o', rfl, h'⟩ := Session.runs_mapErr.mp h
  obtain ⟨hd, hcase⟩ := Device.reboot_runs h'
  refine ⟨hd, ?_⟩
  rcases hcase with ⟨c, e, rfl, hf, rfl⟩ | ⟨c₁, c₂, rfl, hf, rfl⟩
  · exact .rejected (.stop hf) fun _ => ⟨c, rfl⟩
  · cases hack : (Request.inAck d.bump .rebootAck commandTimeout).failure c₂ with
    | none => exact .passed (.next hf (.next hack .done)) trivial
    | some e => exact .rebooting (.next hf (.stop hack)) ⟨_, _, rfl⟩

/-- What a step does. -/
theorem perform_runs {step : Step} {d d' : Device} {tr : BusTrace} {o : Outcome LoadError Unit}
    (hfits : step.Fits) (h : step.perform.Runs d tr o d') :
    d' = d.bump ∧ StepRun d.bump step tr o := by
  cases step with
  | exclusiveAccess =>
      exact stepRun_of_method
        (fun _ h => Device.execNoData_runs (.exclusiveAccess .exclusive) rfl rfl h) trivial
        (by simp) h
  | exitXip =>
      exact stepRun_of_method (fun _ h => Device.execNoData_runs .exitXip rfl rfl h) trivial
        (by simp) h
  | enterCmdXip =>
      exact stepRun_of_method (fun _ h => Device.execNoData_runs .enterCmdXip rfl rfl h) trivial
        (by simp) h
  | exec addr =>
      exact stepRun_of_method (fun _ h => Device.execNoData_runs (.exec addr) rfl rfl h) trivial
        (by simp) h
  | flashErase addr size =>
      exact stepRun_of_method (fun _ h => Device.execNoData_runs (.flashErase addr size) rfl rfl h)
        trivial (by simp) h
  | flashWrite piece =>
      exact stepRun_of_method (fun _ h => Device.flashWrite_runs h) trivial (by simp) h
  | flashRead addr len => exact fetch_runs hfits h
  | compare piece => exact compare_runs hfits h
  | reboot => exact reboot_runs h

/-! ### The exchange of a step -/

theorem sent_exchange (step : Step) (tr : BusTrace) :
    step.Sent (step.cmd.exchange step.data tr) := by
  refine ⟨rfl, ?_⟩
  cases step <;> rfl

/-- What a step that came to `o` adds to the ledger. -/
inductive Entry (step : Step) (o : Outcome LoadError Unit) : List Exchange → Prop
  /-- Nothing: a transfer failed. -/
  | none : (∀ addr, o ≠ .err (.verifyMismatch addr)) → Entry step o []
  /-- It went through. -/
  | made {x : Exchange} : step.Made x → o = .ok () → Entry step o [x]
  /-- It read something else than the piece it compares. -/
  | differs {piece : Segment} {x : Exchange} : step = .compare piece → step.Sent x →
      x.received ≠ piece.data → o = .err (.verifyMismatch piece.addr) → Entry step o [x]

theorem StepRun.entry {d : Device} {step : Step} {tr : BusTrace} {o : Outcome LoadError Unit}
    (h : StepRun d step tr o) (fin : List Exchange) :
    ∃ xs, Entry step o xs ∧ ((Link.mk fin none).after tr).finished = fin ++ xs := by
  have hnone : ∀ {o' : Outcome DeviceError Unit},
      Attempt Request.failure Request.Stuck (step.script d) tr o' → o' ≠ .ok () →
      ((Link.mk fin none).after tr).finished = fin ++ [] := by
    intro o' ha ho
    rw [((Link.after_script ha fin).2 ho).1, List.append_nil]
  cases h with
  | passed ha hagrees =>
      refine ⟨_, .made ⟨sent_exchange step tr, ?_⟩ rfl, ?_⟩
      · intro piece hpiece
        subst hpiece
        exact hagrees
      · rw [(Link.after_script ha fin).1 rfl]
  | rejected ha _ => exact ⟨[], .none (by simp), hnone ha (by simp)⟩
  | halted ha _ => exact ⟨[], .none (by simp), hnone ha (by simp)⟩
  | mismatch ha hne =>
      refine ⟨_, .differs rfl (sent_exchange _ tr) hne rfl, ?_⟩
      rw [(Link.after_script ha fin).1 rfl]
  | rebooting ha _ => exact ⟨[], .none (by simp), hnone ha (by simp)⟩

/-- A step panics only if the maximum packet size is zero. -/
theorem StepRun.ne_panic {d : Device} {step : Step} {tr : BusTrace} {o : Outcome LoadError Unit}
    (h : StepRun d step tr o) (hmax : 0 < d.inMaxPacket) : o ≠ .panic := by
  cases h with
  | halted ha _ => exact absurd rfl (ha.ne_panic fun r hr => Command.not_stuck hr (.inr hmax))
  | passed _ _ => simp
  | rejected _ _ => simp
  | mismatch _ _ => simp
  | rebooting _ _ => simp

/-- A step that does not read goes through if its transfers succeed. -/
theorem StepRun.ok_of_succeeded {d : Device} {step : Step} {tr : BusTrace}
    {o : Outcome LoadError Unit} (h : StepRun d step tr o)
    (hphase : ∀ n, step.cmd.dataPhase ≠ .deviceToHost n) (hs : ∀ ev ∈ tr, Succeeded ev) :
    o = .ok () := by
  cases h with
  | passed _ _ => rfl
  | rejected ha _ =>
      obtain ⟨init, ev, rfl, -, hev⟩ := ha.rejected
      exact absurd (hs ev (by simp)) (by simp [Succeeded, hev])
  | halted ha _ => exact absurd rfl (ha.ne_panic fun r hr => Command.not_stuck hr (.inl hphase))
  | mismatch _ _ => exact absurd rfl (hphase _)
  | rebooting _ _ => rfl

/-- In a step that was not rejected, other than a reboot, all transfers
succeeded. -/
theorem StepRun.succeeded {d : Device} {step : Step} {tr : BusTrace} {o : Outcome LoadError Unit}
    (h : StepRun d step tr o) (hno : step ≠ .reboot) (ho : ∀ e, o ≠ .err e) :
    ∀ ev ∈ tr, Succeeded ev := by
  cases h with
  | passed ha _ => exact ha.passed (by simp)
  | halted ha _ => exact ha.passed (by simp)
  | rejected _ _ => exact absurd rfl (ho _)
  | mismatch _ _ => exact absurd rfl (ho _)
  | rebooting _ _ => exact absurd rfl hno

/-- A step whose transfers all succeed issues its whole script, if the maximum
packet size is positive. -/
theorem StepRun.complete {d : Device} {step : Step} {tr : BusTrace} {o : Outcome LoadError Unit}
    (h : StepRun d step tr o) (hmax : 0 < d.inMaxPacket) (hs : ∀ ev ∈ tr, Succeeded ev) :
    tr.map Prod.fst = step.script d := by
  obtain ⟨o', ha⟩ := h.attempt
  exact ha.complete hs fun r hr => Command.not_stuck hr (.inr hmax)

/-- Such a step goes through, unless it compares. -/
theorem StepRun.ok_of_complete {d : Device} {step : Step} {tr : BusTrace}
    {o : Outcome LoadError Unit} (h : StepRun d step tr o) (hmax : 0 < d.inMaxPacket)
    (hs : ∀ ev ∈ tr, Succeeded ev) (hno : ∀ piece, step ≠ .compare piece) : o = .ok () := by
  have hpanic := h.ne_panic hmax
  cases h with
  | passed _ _ => rfl
  | rejected ha _ =>
      obtain ⟨init, ev, rfl, -, hev⟩ := ha.rejected
      have hlast := hs ev (by simp)
      simp [Succeeded, hev] at hlast
  | halted _ _ => exact absurd rfl hpanic
  | mismatch _ _ => exact absurd rfl (hno _)
  | rebooting _ _ => rfl

/-- A failed transfer is the error of the step, unless it is the acknowledgement
of a reboot. -/
theorem StepRun.of_failure {d : Device} {step : Step} {tr : BusTrace} {o : Outcome LoadError Unit}
    {ev : Request × Completion} {e : DeviceError} (h : StepRun d step tr o) (hev : ev ∈ tr)
    (hf : ev.1.failure ev.2 = some e) :
    o = .err (.device e) ∨ (step = .reboot ∧ ev.1.op = .rebootAck ∧ o = .ok ()) := by
  cases h with
  | passed ha _ => simp [ha.passed (by simp) ev hev] at hf
  | halted ha _ => simp [ha.passed (by simp) ev hev] at hf
  | mismatch ha _ => simp [ha.passed (by simp) ev hev] at hf
  | rejected ha _ =>
      obtain ⟨init, last, rfl, hinit, hlast⟩ := ha.rejected
      rcases List.mem_append.mp hev with hev | hev
      · simp [hinit ev hev] at hf
      · rw [List.mem_singleton.mp hev, hlast] at hf
        exact .inl (by rw [Option.some.inj hf])
  | rebooting ha htwo =>
      obtain ⟨ev₁, ev₂, rfl⟩ := htwo
      have hpre := ha.map_fst_prefix
      obtain ⟨init, last, heq, hinit, -⟩ := ha.rejected
      obtain ⟨rfl, rfl⟩ : init = [ev₁] ∧ last = ev₂ := by
        have := List.append_inj' (show [ev₁] ++ [ev₂] = init ++ [last] from heq) rfl
        simp_all
      rcases List.mem_cons.mp hev with rfl | hev
      · simp [hinit ev (by simp)] at hf
      · obtain rfl := List.mem_singleton.mp hev
        simp only [Step.script, Command.script, Command.rest, Step.cmd, Command.dataPhase,
          List.map_cons, List.cons_prefix_cons] at hpre
        exact .inr ⟨rfl, by rw [hpre.2.1]; rfl, rfl⟩

/-! ### Sequences of steps -/

/-- A step that went through, other than a reboot, is one exchange more. -/
theorem StepRun.link {d : Device} {step : Step} {tr : BusTrace}
    (h : StepRun d step tr (.ok ())) (hno : step ≠ .reboot) (fin : List Exchange) :
    ∃ x, step.Made x ∧ (Link.mk fin none).after tr = ⟨fin ++ [x], none⟩ := by
  cases h with
  | passed ha hagrees =>
      refine ⟨_, ⟨sent_exchange step tr, ?_⟩, (Link.after_script ha fin).1 rfl⟩
      intro piece heq
      subst heq
      exact hagrees
  | rebooting _ _ => exact absurd rfl hno

/-- Steps that went through, without a reboot, are one exchange each. -/
theorem steps_link {steps : List Step} {d d' : Device} {tr : BusTrace}
    (h : LoopRuns Step.perform steps d tr (.ok ()) d') (hfits : ∀ step ∈ steps, step.Fits)
    (hno : .reboot ∉ steps) (fin : List Exchange) :
    ∃ xs, List.Forall₂ Step.Made steps xs ∧
      (Link.mk fin none).after tr = ⟨fin ++ xs, none⟩ := by
  induction steps generalizing d tr fin with
  | nil =>
      cases h
      exact ⟨[], .nil, by simp⟩
  | cons step steps ih =>
      rw [List.forall_mem_cons] at hfits
      rw [List.mem_cons, not_or] at hno
      cases h with
      | cons hstep hsteps =>
          obtain ⟨rfl, hrun⟩ := perform_runs hfits.1 hstep
          obtain ⟨x, hx, hl⟩ := hrun.link (Ne.symm hno.1) fin
          obtain ⟨xs, hxs, hl'⟩ := ih hsteps hfits.2 hno.2 (fin ++ [x])
          exact ⟨x :: xs, .cons hx hxs, by rw [Link.after_append, hl, hl']; simp⟩
      | stop _ ho => exact absurd rfl ho

/-- Steps that do not read go through if their transfers succeed. -/
theorem steps_ok_of_succeeded {steps : List Step} {d d' : Device} {tr : BusTrace}
    {o : Outcome LoadError Unit} (h : LoopRuns Step.perform steps d tr o d')
    (hfits : ∀ step ∈ steps, step.Fits)
    (hphase : ∀ step ∈ steps, ∀ n, step.cmd.dataPhase ≠ .deviceToHost n)
    (hs : ∀ ev ∈ tr, Succeeded ev) : o = .ok () := by
  by_contra ho
  obtain ⟨done, step, rest, d₁, t₁, t₂, rfl, rfl, -, hstep⟩ := h.split_stop ho
  obtain ⟨-, hrun⟩ := perform_runs (hfits step (by simp)) hstep
  exact ho (hrun.ok_of_succeeded (hphase step (by simp)) fun ev hev =>
    hs ev (List.mem_append_right _ hev))

/-- Steps do not panic if the maximum packet size is positive, and it stays so.
-/
theorem steps_ne_panic {steps : List Step} {d d' : Device} {tr : BusTrace}
    {o : Outcome LoadError Unit} (h : LoopRuns Step.perform steps d tr o d')
    (hfits : ∀ step ∈ steps, step.Fits) (hmax : 0 < d.inMaxPacket) :
    o ≠ .panic ∧ d'.inMaxPacket = d.inMaxPacket := by
  induction steps generalizing d tr with
  | nil =>
      cases h
      exact ⟨by simp, rfl⟩
  | cons step steps ih =>
      rw [List.forall_mem_cons] at hfits
      cases h with
      | cons hstep hsteps =>
          obtain ⟨rfl, -⟩ := perform_runs hfits.1 hstep
          obtain ⟨ho, hd⟩ := ih hsteps hfits.2 hmax
          exact ⟨ho, hd⟩
      | stop hstep _ =>
          obtain ⟨rfl, hrun⟩ := perform_runs hfits.1 hstep
          exact ⟨hrun.ne_panic hmax, rfl⟩

/-- Steps without a comparison go through if their transfers succeed and the maximum
packet size is positive. -/
theorem steps_ok_of_complete {steps : List Step} {d d' : Device} {tr : BusTrace}
    {o : Outcome LoadError Unit} (h : LoopRuns Step.perform steps d tr o d')
    (hfits : ∀ step ∈ steps, step.Fits) (hmax : 0 < d.inMaxPacket)
    (hs : ∀ ev ∈ tr, Succeeded ev) (hno : ∀ piece, .compare piece ∉ steps) : o = .ok () := by
  by_contra ho
  obtain ⟨done, step, rest, d₁, t₁, t₂, rfl, rfl, hdone, hstep⟩ := h.split_stop ho
  have hd := (steps_ne_panic hdone (fun s hs => hfits s (by simp [hs])) hmax).2
  obtain ⟨-, hrun⟩ := perform_runs (hfits step (by simp)) hstep
  refine ho (hrun.ok_of_complete ?_ (fun ev hev => hs ev (List.mem_append_right _ hev)) ?_)
  · rwa [Device.bump_inMaxPacket, hd]
  · intro piece heq
    exact hno piece (by simp [heq])

/-- What a sequence of steps that came to `o` adds to the ledger. -/
inductive Ledger (steps : List Step) (o : Outcome LoadError Unit) : List Exchange → Prop
  /-- The first steps went through. If all is well these are all steps, except
  that a reboot need not be acknowledged. -/
  | made {done : List Step} {xs : List Exchange} : done <+: steps →
      List.Forall₂ Step.Made done xs → (o = .ok () → steps.dropLast <+: done) →
      (∀ addr, o ≠ .err (.verifyMismatch addr)) → Ledger steps o xs
  /-- The first steps went through and the next one found a mismatch. -/
  | differs {done : List Step} {xs : List Exchange} {piece : Segment} {x : Exchange} :
      done ++ [.compare piece] <+: steps → List.Forall₂ Step.Made done xs →
      (Step.compare piece).Sent x → x.received ≠ piece.data →
      o = .err (.verifyMismatch piece.addr) → Ledger steps o (xs ++ [x])

namespace Ledger

variable {step : Step} {steps : List Step} {o : Outcome LoadError Unit} {x : Exchange}
  {xs : List Exchange}

/-- A step that ended the sequence. -/
theorem single (h : Entry step o xs) (hlast : o = .ok () → steps = []) :
    Ledger (step :: steps) o xs := by
  cases h with
  | none ho =>
      refine .made List.nil_prefix .nil (fun hok => ?_) ho
      rw [hlast hok]
      exact List.nil_prefix
  | made hx hok =>
      have hpre : [step] <+: step :: steps := by simp
      refine .made hpre (.cons hx .nil) (fun _ => ?_) (by simp [hok])
      rw [hlast hok]
      exact List.nil_prefix
  | @differs piece x hpiece hx hne ho =>
      subst hpiece
      have hpre : ([] : List Step) ++ [.compare piece] <+: .compare piece :: steps := by simp
      exact .differs hpre .nil hx hne ho

/-- A step that went through before others. -/
theorem cons (hx : step.Made x) (hne : steps ≠ []) (h : Ledger steps o xs) :
    Ledger (step :: steps) o (x :: xs) := by
  cases h with
  | made hpre hxs hok ho =>
      refine .made ((List.prefix_cons_inj _).mpr hpre) (.cons hx hxs) (fun h => ?_) ho
      rw [List.dropLast_cons_of_ne_nil hne]
      exact (List.prefix_cons_inj _).mpr (hok h)
  | @differs done xs piece y hpre hxs hy hdiff ho =>
      have hpre' : (step :: done) ++ [.compare piece] <+: step :: steps :=
        (List.prefix_cons_inj _).mpr hpre
      exact .differs hpre' (.cons hx hxs) hy hdiff ho

/-- In any case these are exchanges of the first steps. -/
theorem sent (h : Ledger steps o xs) : ∃ done, done <+: steps ∧ List.Forall₂ Step.Sent done xs := by
  cases h with
  | made hpre hxs _ _ => exact ⟨_, hpre, hxs.imp fun _ _ hx => hx.toSent⟩
  | differs hpre hxs hx _ _ =>
      exact ⟨_, hpre, List.rel_append (hxs.imp fun _ _ hx => hx.toSent) (.cons hx .nil)⟩

end Ledger

/-- What a sequence of steps, of which only the last may be a reboot, adds to the
ledger. -/
theorem steps_ledger {steps : List Step} {d d' : Device} {tr : BusTrace}
    {o : Outcome LoadError Unit} (h : LoopRuns Step.perform steps d tr o d')
    (hfits : ∀ step ∈ steps, step.Fits) (hlast : .reboot ∉ steps.dropLast) (fin : List Exchange) :
    ∃ xs, Ledger steps o xs ∧ ((Link.mk fin none).after tr).finished = fin ++ xs := by
  induction steps generalizing d tr fin with
  | nil =>
      cases h
      exact ⟨[], .made List.prefix_rfl .nil (fun _ => List.prefix_rfl) (by simp), by simp⟩
  | cons step steps ih =>
      rw [List.forall_mem_cons] at hfits
      cases h with
      | @cons _ _ _ d₁ _ t₁ t₂ _ hstep hsteps =>
          obtain ⟨rfl, hrun⟩ := perform_runs hfits.1 hstep
          by_cases hnil : steps = []
          · subst hnil
            cases hsteps
            obtain ⟨xs, hxs, hl⟩ := hrun.entry fin
            exact ⟨xs, .single hxs fun _ => rfl, by rw [List.append_nil, hl]⟩
          · rw [List.dropLast_cons_of_ne_nil hnil, List.mem_cons, not_or] at hlast
            obtain ⟨x, hx, hl⟩ := hrun.link (Ne.symm hlast.1) fin
            obtain ⟨xs, hxs, hl'⟩ := ih hsteps hfits.2 hlast.2 (fin ++ [x])
            refine ⟨x :: xs, hxs.cons hx hnil, ?_⟩
            rw [Link.after_append, hl, hl', List.append_assoc, List.singleton_append]
      | stop hstep ho =>
          obtain ⟨rfl, hrun⟩ := perform_runs hfits.1 hstep
          obtain ⟨xs, hxs, hl⟩ := hrun.entry fin
          exact ⟨xs, .single hxs fun hok => absurd hok ho, hl⟩

/-- Steps that are not rejected, without a reboot, have all their transfers
succeed. -/
theorem steps_succeeded {steps : List Step} {d d' : Device} {tr : BusTrace}
    {o : Outcome LoadError Unit} (h : LoopRuns Step.perform steps d tr o d')
    (hfits : ∀ step ∈ steps, step.Fits) (hno : .reboot ∉ steps) (ho : ∀ e, o ≠ .err e) :
    ∀ ev ∈ tr, Succeeded ev := by
  induction steps generalizing d tr with
  | nil =>
      cases h
      simp
  | cons step steps ih =>
      rw [List.forall_mem_cons] at hfits
      rw [List.mem_cons, not_or] at hno
      cases h with
      | cons hstep hsteps =>
          obtain ⟨rfl, hrun⟩ := perform_runs hfits.1 hstep
          intro ev hev
          rcases List.mem_append.mp hev with hev | hev
          · exact hrun.succeeded (Ne.symm hno.1) (by simp) ev hev
          · exact ih hsteps hfits.2 hno.2 ev hev
      | stop hstep _ =>
          obtain ⟨rfl, hrun⟩ := perform_runs hfits.1 hstep
          exact hrun.succeeded (Ne.symm hno.1) ho

/-- At any packet of a run of steps, of which only the last may be a reboot: the
packet is that of the next step, the steps before are over, every transfer so
far succeeded, and no command is half-finished. -/
theorem packets_in_order {steps : List Step} {d d' : Device} {o : Outcome LoadError Unit}
    {pre post : BusTrace} {ev : Request × Completion}
    (h : LoopRuns Step.perform steps d (pre ++ ev :: post) o d')
    (hfits : ∀ step ∈ steps, step.Fits) (hlast : .reboot ∉ steps.dropLast)
    (hev : ev.1.IsPacket) (fin : List Exchange) :
    ∃ done step rest xs d₁ t o₁, steps = done ++ step :: rest ∧
      (Link.mk fin none).after pre = ⟨fin ++ xs, none⟩ ∧ List.Forall₂ Step.Made done xs ∧
      (∀ ev' ∈ pre, Succeeded ev') ∧ ev.1 = step.cmd.packet d₁ ∧ StepRun d₁ step (ev :: t) o₁ ∧
      ((o₁ = .ok () ∧ ∃ t', post = t ++ t' ∧ LoopRuns Step.perform rest d₁ t' o d') ∨
        (o₁ ≠ .ok () ∧ post = t ∧ o = o₁)) := by
  obtain ⟨done, step, rest, d₁, d₂, t₁, t₂, t₃, o₁, rfl, rfl, hdone, hstep, hend⟩ := h.split_at
  rw [List.dropLast_append_of_ne_nil (by simp), List.mem_append, not_or] at hlast
  have hfits' : ∀ s ∈ done, s.Fits := fun s hs => hfits s (by simp [hs])
  obtain ⟨rfl, hrun⟩ := perform_runs (hfits step (by simp)) hstep
  obtain ⟨rfl, hpacket⟩ := hrun.packet_first hev
  obtain ⟨xs, hxs, hl⟩ := steps_link hdone hfits' hlast.1 fin
  have hpassed := steps_succeeded hdone hfits' hlast.1 (by simp)
  rw [List.append_nil]
  refine ⟨done, step, rest, xs, d₁.bump, t₃, o₁, rfl, hl, hxs, hpassed, hpacket, hrun, ?_⟩
  rcases hend with ⟨rfl, t', rfl, hrest⟩ | ⟨ho, rfl, rfl, -⟩
  · exact .inl ⟨rfl, t', rfl, hrest⟩
  · exact .inr ⟨ho, rfl, rfl⟩

/-- Every packet of a run of steps is that of one of them. -/
theorem step_of_packet {steps : List Step} {d d' : Device} {o : Outcome LoadError Unit}
    {tr : BusTrace} {ev : Request × Completion} (h : LoopRuns Step.perform steps d tr o d')
    (hfits : ∀ step ∈ steps, step.Fits) (hev : ev ∈ tr) (hpacket : ev.1.IsPacket) :
    ∃ step ∈ steps, ev.1.IsPacketOf step.cmd := by
  obtain ⟨pre, post, rfl⟩ := List.append_of_mem hev
  obtain ⟨done, step, rest, d₁, d₂, t₁, t₂, t₃, o₁, rfl, -, -, hstep, -⟩ := h.split_at
  obtain ⟨-, hrun⟩ := perform_runs (hfits step (by simp)) hstep
  exact ⟨step, by simp, by rw [Request.IsPacketOf, (hrun.packet_first hpacket).2, role_packet]⟩

/-- Every request of a run of steps is in the script of one of them. -/
theorem step_of_request {steps : List Step} {d d' : Device} {o : Outcome LoadError Unit}
    {tr : BusTrace} {ev : Request × Completion} (h : LoopRuns Step.perform steps d tr o d')
    (hfits : ∀ step ∈ steps, step.Fits) (hev : ev ∈ tr) :
    ∃ step ∈ steps, ∃ d₁, ev.1 ∈ step.script d₁ := by
  obtain ⟨pre, post, rfl⟩ := List.append_of_mem hev
  obtain ⟨done, step, rest, d₁, d₂, t₁, t₂, t₃, o₁, rfl, -, -, hstep, -⟩ := h.split_at
  obtain ⟨-, hrun⟩ := perform_runs (hfits step (by simp)) hstep
  obtain ⟨o', ha⟩ := hrun.attempt
  exact ⟨step, by simp, d₁.bump, ha.map_fst_prefix.subset (by simp)⟩

/-- Steps keep in step. -/
theorem steps_inStep {steps : List Step} {d d' : Device} {tr : BusTrace}
    {o : Outcome LoadError Unit} (h : LoopRuns Step.perform steps d tr o d')
    (hfits : ∀ step ∈ steps, step.Fits) (hlast : .reboot ∉ steps.dropLast) (fin : List Exchange) :
    (Link.mk fin none).InStep tr := by
  intro pre ev post heq hev
  subst heq
  obtain ⟨_, _, _, _, _, _, _, -, hl, -⟩ := packets_in_order h hfits hlast hev fin
  rw [hl]

/-- Steps that are rejected, without a reboot or a comparison, leave a command
half-finished exactly if a data phase or an acknowledgement failed. -/
theorem steps_pending {steps : List Step} {d d' : Device} {tr : BusTrace} {e : LoadError}
    (h : LoopRuns Step.perform steps d tr (.err e) d') (hfits : ∀ step ∈ steps, step.Fits)
    (hno : .reboot ∉ steps) (hcompare : ∀ piece, .compare piece ∉ steps) (fin : List Exchange) :
    ((Link.mk fin none).after tr).pending = none ↔
      ∀ ev ∈ tr, ¬ ev.1.IsPacket → Succeeded ev := by
  obtain ⟨done, step, rest, d₁, t₁, t₂, rfl, rfl, hdone, hstep⟩ := h.split_stop (by simp)
  rw [List.mem_append, not_or] at hno
  have hfits' : ∀ s ∈ done, s.Fits := fun s hs => hfits s (by simp [hs])
  have hpassed := steps_succeeded hdone hfits' hno.1 (by simp)
  obtain ⟨xs, -, hl⟩ := steps_link hdone hfits' hno.1 fin
  obtain ⟨rfl, hrun⟩ := perform_runs (hfits step (by simp)) hstep
  rw [Link.after_append, hl]
  cases hrun with
  | rejected ha _ =>
      rw [Link.pending_of_rejected ha]
      constructor
      · intro hall ev hev hev'
        rcases List.mem_append.mp hev with hev | hev
        · exact hpassed ev hev
        · exact hall ev hev hev'
      · intro hall ev hev
        exact hall ev (List.mem_append_right _ hev)
  | @mismatch piece _ _ _ => exact absurd (by simp) (hcompare piece)

/-- A step sends its command. -/
theorem StepRun.commands {d : Device} {step : Step} {tr : BusTrace} {o : Outcome LoadError Unit}
    (h : StepRun d step tr o) : commands tr = [step.cmd] := by
  obtain ⟨o', ha⟩ := h.attempt
  obtain ⟨c, t, rfl⟩ := h.start
  exact commands_of_prefix ha.map_fst_prefix (by simp)

/-- Steps send their commands in order, all of them if they go through. -/
theorem steps_commands {steps : List Step} {d d' : Device} {tr : BusTrace}
    {o : Outcome LoadError Unit} (h : LoopRuns Step.perform steps d tr o d')
    (hfits : ∀ step ∈ steps, step.Fits) :
    commands tr <+: steps.map Step.cmd ∧ (o = .ok () → commands tr = steps.map Step.cmd) := by
  induction steps generalizing d tr with
  | nil =>
      cases h
      exact ⟨List.prefix_refl _, fun _ => rfl⟩
  | cons step steps ih =>
      rw [List.forall_mem_cons] at hfits
      cases h with
      | cons hstep hsteps =>
          obtain ⟨rfl, hrun⟩ := perform_runs hfits.1 hstep
          obtain ⟨hpre, hall⟩ := ih hsteps hfits.2
          rw [commands_append, hrun.commands, List.map_cons, List.singleton_append]
          exact ⟨(List.prefix_cons_inj _).mpr hpre, fun ho => by rw [hall ho]⟩
      | stop hstep ho =>
          obtain ⟨rfl, hrun⟩ := perform_runs hfits.1 hstep
          rw [hrun.commands]
          exact ⟨⟨_, rfl⟩, fun hok => absurd hok ho⟩

/-- A run of steps starts with the packet of the first one. -/
theorem steps_start {step : Step} {steps : List Step} {d d' : Device} {tr : BusTrace}
    {o : Outcome LoadError Unit} (h : LoopRuns Step.perform (step :: steps) d tr o d')
    (hfits : step.Fits) : ∃ c t, tr = (step.cmd.packet d.bump, c) :: t := by
  cases h with
  | cons hstep _ =>
      obtain ⟨rfl, hrun⟩ := perform_runs hfits hstep
      obtain ⟨c, t, rfl⟩ := hrun.start
      exact ⟨c, _, rfl⟩
  | stop hstep _ =>
      obtain ⟨rfl, hrun⟩ := perform_runs hfits hstep
      exact hrun.start

end PicotoolRs
