import PicotoolRs.Device.Script
import PicotoolRs.Picoboot.Decode

/-!
# PicotoolRs.Device.Link

How far the device has come with the commands of a trace.

A command is over when its packet, its data phase and its acknowledgement have
all completed successfully. `Link` walks over the events of a trace and keeps
the list of commands that are over, each with the bytes of its data phase, and
the command that is half-finished, if there is one. Commands are read off the
packets on the wire.

`Link.after_script` is all later proofs need: a script that goes through adds
one exchange, a script that stops adds none and leaves the command half-finished
unless its packet was rejected.
-/

namespace PicotoolRs

open Lib

/-! ### What a transfer is for -/

/-- The part a transfer plays in a command. -/
inductive Role
  /-- It resets the interface. -/
  | reset
  /-- It is the packet of a command. -/
  | packet (cmd : Option Command)
  /-- It is a data phase towards the device. -/
  | dataOut (buf : List UInt8)
  /-- It is a data phase towards the host. -/
  | dataIn
  /-- It is an acknowledgement. -/
  | ack
  deriving Repr, DecidableEq

namespace Request

/-- The part a transfer plays, from its direction and label. -/
def role (r : Request) : Role :=
  match r.transfer, r.op with
  | .controlOut _ _ _, _ => .reset
  | .bulkOut buf, .writeData => .dataOut buf
  | .bulkOut _, .readAck => .ack
  | .bulkOut buf, _ => .packet ((Command.decode buf).map Prod.fst)
  | .bulkIn _, .readData => .dataIn
  | .bulkIn _, _ => .ack

/-- The transfer is the packet of a command. -/
def IsPacket (r : Request) : Prop := ∃ cmd, r.role = .packet cmd

instance (r : Request) : Decidable r.IsPacket :=
  match h : r.role with
  | .packet cmd => isTrue ⟨cmd, h⟩
  | .reset | .dataOut _ | .dataIn | .ack => isFalse fun ⟨_, h'⟩ => by simp [h] at h'

/-- The transfer is the packet of the command `cmd`. -/
def IsPacketOf (r : Request) (cmd : Command) : Prop := r.role = .packet (some cmd)

end Request

@[simp] theorem role_packet (d : Device) (cmd : Command) :
    (cmd.packet d).role = .packet (some cmd) := by
  cases cmd <;> simp [Command.packet, Request.out, Request.role, Command.packetOp]

@[simp] theorem role_out_writeData (buf : List UInt8) (timeout : Nat) :
    (Request.out buf .writeData timeout).role = .dataOut buf := rfl

@[simp] theorem role_inData (d : Device) (len timeout : Nat) :
    (Request.inData d len .readData timeout).role = .dataIn := rfl

@[simp] theorem role_outAck : (Request.outAck .readAck).role = .ack := rfl

@[simp] theorem role_reset (d : Device) : (Request.reset d).role = .reset := rfl

/-- The acknowledgement of a command that is not a read. -/
theorem role_inAck (d : Device) (cmd : Command) (timeout : Nat) :
    (Request.inAck d cmd.ackOp timeout).role = .ack := by
  cases cmd <;> rfl

/-- What follows a packet is not a packet. -/
theorem not_isPacket_of_mem_rest {d : Device} {cmd : Command} {data : List UInt8} {r : Request}
    (h : r ∈ cmd.rest d data) : ¬ r.IsPacket := by
  have hack := role_inAck d cmd cmd.ackTimeout
  intro h
  obtain ⟨cmd', hr⟩ := h
  unfold Command.rest at h
  split at h
  · simp_all
  · simp only [List.mem_cons, List.not_mem_nil, or_false] at h
    rcases h with rfl | rfl <;> simp_all
  · next n hphase =>
    -- only the two writes have a third phase, and both are read back by an IN acknowledgement
    have hread : cmd.ackOp = .readAck := by
      cases cmd <;> simp_all [Command.dataPhase, Command.ackOp]
    rw [hread] at h
    simp only [List.mem_cons, List.not_mem_nil, or_false] at h
    rcases h with rfl | rfl <;> simp_all

/-- The command whose packet the transfer is. -/
def Request.command (r : Request) : Option Command :=
  match r.role with
  | .packet cmd => cmd
  | .reset | .dataOut _ | .dataIn | .ack => none

/-- The commands sent in a trace, in order. -/
def commands (tr : BusTrace) : List Command := (tr.map Prod.fst).filterMap Request.command

theorem commands_append (t₁ t₂ : BusTrace) :
    commands (t₁ ++ t₂) = commands t₁ ++ commands t₂ := by
  rw [commands, List.map_append, List.filterMap_append, ← commands, ← commands]

theorem command_of_not_isPacket {r : Request} (h : ¬ r.IsPacket) : r.command = none := by
  unfold Request.command
  cases hrole : r.role with
  | packet cmd => exact absurd ⟨cmd, hrole⟩ h
  | _ => rfl

/-- A script that is started sends its command. -/
theorem commands_of_prefix {d : Device} {cmd : Command} {data : List UInt8} {tr : BusTrace}
    (h : tr.map Prod.fst <+: cmd.script d data) (hne : tr ≠ []) : commands tr = [cmd] := by
  cases tr with
  | nil => exact absurd rfl hne
  | cons ev tr =>
      rw [List.map_cons, Command.script, List.cons_prefix_cons] at h
      obtain ⟨hev, hrest⟩ := h
      have hpacket : ev.1.command = some cmd := by
        rw [hev, Request.command, role_packet]
      have hnone : (tr.map Prod.fst).filterMap Request.command = [] := by
        rw [List.filterMap_eq_nil_iff]
        exact fun r hr => command_of_not_isPacket (not_isPacket_of_mem_rest (hrest.subset hr))
      rw [commands, List.map_cons, List.filterMap_cons_some hpacket, hnone]

/-! ### The ledger -/

/-- A command with the bytes of its data phase. -/
structure Exchange where
  cmd : Command
  sent : List UInt8
  received : List UInt8
  deriving Repr, DecidableEq

/-- How far the commands of a trace have come. -/
structure Link where
  /-- The commands that are over. -/
  finished : List Exchange
  /-- The command that is half-finished, and whether its data phase is over. -/
  pending : Option (Exchange × Bool)
  deriving Repr, DecidableEq

namespace Link

/-- No command yet. -/
def start : Link := ⟨[], none⟩

/-- The effect of a transfer that completed successfully. -/
def advance (l : Link) (r : Request) (c : Completion) : Link :=
  match r.role with
  | .reset => { l with pending := none }
  | .packet (some cmd) => { l with pending := some (⟨cmd, [], []⟩, cmd.dataPhase = .none) }
  | .packet none => l
  | .dataOut buf => { l with pending := l.pending.map fun p => ({ p.1 with sent := buf }, true) }
  | .dataIn =>
      { l with pending := l.pending.map fun p => ({ p.1 with received := r.kept c }, true) }
  | .ack =>
      match l.pending with
      | some (x, true) => ⟨l.finished ++ [x], none⟩
      | _ => l

/-- The effect of an event. What went out is what the host sees as such: a packet
whose transfer failed leaves no command behind, even if the device has it. -/
def next (l : Link) (ev : Request × Completion) : Link :=
  if Succeeded ev then l.advance ev.1 ev.2 else l

/-- The ledger after a trace. -/
def after (l : Link) (tr : BusTrace) : Link := tr.foldl next l

@[simp] theorem after_nil (l : Link) : l.after [] = l := rfl

@[simp] theorem after_cons (l : Link) (ev : Request × Completion) (tr : BusTrace) :
    l.after (ev :: tr) = (l.next ev).after tr := rfl

@[simp] theorem after_append (l : Link) (t₁ t₂ : BusTrace) :
    l.after (t₁ ++ t₂) = (l.after t₁).after t₂ := by
  simp [after]

theorem next_of_succeeded {l : Link} {r : Request} {c : Completion} (h : r.failure c = none) :
    l.next (r, c) = l.advance r c := if_pos h

theorem next_of_failure {l : Link} {r : Request} {c : Completion} {e : DeviceError}
    (h : r.failure c = some e) : l.next (r, c) = l := if_neg (by simp [Succeeded, h])

end Link

/-- The exchange a script makes if it goes through with the trace `tr`. -/
def Command.exchange (cmd : Command) (data : List UInt8) (tr : BusTrace) : Exchange where
  cmd := cmd
  sent := match cmd.dataPhase with
    | .hostToDevice _ => data
    | _ => []
  received := received tr

theorem kept_packet (d : Device) (cmd : Command) (c : Completion) : (cmd.packet d).kept c = [] := by
  cases cmd <;> rfl

theorem kept_out (buf : List UInt8) (op : Op) (timeout : Nat) (c : Completion) :
    (Request.out buf op timeout).kept c = [] := by
  cases op <;> rfl

theorem kept_inAck (d : Device) (op : Op) (timeout : Nat) (c : Completion) :
    (Request.inAck d op timeout).kept c = [] := by
  cases op <;> rfl

theorem kept_outAck (op : Op) (c : Completion) : (Request.outAck op).kept c = [] := by
  cases op <;> rfl

/-- Only a command that reads keeps bytes. -/
theorem kept_of_mem_script {d : Device} {cmd : Command} {data : List UInt8} {r : Request}
    (hr : r ∈ cmd.script d data) (hphase : ∀ n, cmd.dataPhase ≠ .deviceToHost n)
    (c : Completion) : r.kept c = [] := by
  rcases List.mem_cons.mp hr with rfl | hr
  · exact kept_packet ..
  · unfold Command.rest at hr
    split at hr
    · obtain rfl := List.mem_singleton.mp hr
      exact kept_inAck ..
    · simp only [List.mem_cons, List.not_mem_nil, or_false] at hr
      rcases hr with rfl | rfl
      · exact kept_out ..
      · exact kept_inAck ..
    · next n hn => exact absurd hn (hphase n)

/-- The transfers after a packet that went out. -/
theorem Link.after_rest {d : Device} {cmd : Command} {data : List UInt8} {tr : BusTrace}
    {o : Outcome DeviceError Unit}
    (h : Attempt Request.failure Request.Stuck (cmd.rest d data) tr o) (done : List Exchange) :
    let l := (Link.mk done (some (⟨cmd, [], []⟩, cmd.dataPhase = .none))).after tr
    (o = .ok () → l = ⟨done ++ [cmd.exchange data tr], none⟩) ∧
    (o ≠ .ok () → l.finished = done ∧ l.pending ≠ none) := by
  have hack := role_inAck d cmd cmd.ackTimeout
  unfold Command.rest at h
  cases hphase : cmd.dataPhase with
  | none =>
      simp only [hphase] at h
      cases h with
      | next hf h =>
          cases h
          simp [Link.next_of_succeeded hf, Link.advance, hack, Command.exchange, hphase, received,
            kept_inAck]
      | stop hf => simp [Link.next_of_failure hf]
      | halt hs => simp
  | hostToDevice n =>
      simp only [hphase] at h
      cases h with
      | next hf h =>
          rw [Link.after_cons, Link.next_of_succeeded hf]
          cases h with
          | next hf h =>
              cases h
              simp [Link.next_of_succeeded hf, Link.advance, hack, Command.exchange, hphase,
                received, kept_inAck, kept_out]
          | stop hf => simp [Link.next_of_failure hf, Link.advance]
          | halt hs => simp [Link.advance]
      | stop hf => simp [Link.next_of_failure hf]
      | halt hs => simp
  | deviceToHost n =>
      have hread : cmd.ackOp = .readAck := by
        cases cmd <;> simp_all [Command.dataPhase, Command.ackOp]
      simp only [hphase, hread] at h
      cases h with
      | next hf h =>
          rw [Link.after_cons, Link.next_of_succeeded hf]
          cases h with
          | next hf h =>
              cases h
              simp [Link.next_of_succeeded hf, Link.advance, Command.exchange, hphase, received,
                kept_outAck]
          | stop hf => simp [Link.next_of_failure hf, Link.advance]
          | halt hs => simp [Link.advance]
      | stop hf => simp [Link.next_of_failure hf]
      | halt hs => simp

/-- A script that goes through adds its exchange. A script that stops adds
nothing, and leaves its command half-finished exactly if its packet went out. -/
theorem Link.after_script {d : Device} {cmd : Command} {data : List UInt8} {tr : BusTrace}
    {o : Outcome DeviceError Unit}
    (h : Attempt Request.failure Request.Stuck (cmd.script d data) tr o) (done : List Exchange) :
    let l := (Link.mk done none).after tr
    (o = .ok () → l = ⟨done ++ [cmd.exchange data tr], none⟩) ∧
    (o ≠ .ok () → l.finished = done ∧
      (l.pending = none ↔ ∀ ev ∈ tr, ev.1.IsPacket → ¬ Succeeded ev)) := by
  cases h with
  | next hf h =>
      obtain ⟨hok, hno⟩ := Link.after_rest h done
      simp only [Link.after_cons, Link.next_of_succeeded hf, Link.advance, role_packet]
      refine ⟨fun ho => ?_, fun ho => ⟨(hno ho).1, ?_⟩⟩
      · rw [hok ho]
        simp [Command.exchange, received, kept_packet]
      · refine iff_of_false (hno ho).2 fun hall => ?_
        exact hall _ (List.mem_cons_self ..) ⟨_, role_packet d cmd⟩ hf
  | stop hf =>
      simp only [Link.after_cons, Link.next_of_failure hf, Link.after_nil]
      simp [Succeeded, hf]
  | halt hs => simp

/-- A rejected script leaves its command half-finished exactly if its data phase
or its acknowledgement failed. -/
theorem Link.pending_of_rejected {d : Device} {cmd : Command} {data : List UInt8} {tr : BusTrace}
    {e : DeviceError}
    (h : Attempt Request.failure Request.Stuck (cmd.script d data) tr (.err e))
    (done : List Exchange) :
    ((Link.mk done none).after tr).pending = none ↔
      ∀ ev ∈ tr, ¬ ev.1.IsPacket → Succeeded ev := by
  rw [((Link.after_script h done).2 (by simp)).2]
  cases h with
  | next hf h =>
      obtain ⟨init, ev, rfl, -, hev⟩ := h.rejected
      have hrest : ev.1 ∈ cmd.rest d data := by
        refine h.map_fst_prefix.subset ?_
        simp
      refine iff_of_false ?_ ?_
      · intro hall
        exact hall _ (List.mem_cons_self ..) ⟨_, role_packet d cmd⟩ hf
      · intro hall
        have hs := hall ev (by simp) (not_isPacket_of_mem_rest hrest)
        simp [Succeeded, hev] at hs
  | stop hf =>
      refine iff_of_true ?_ ?_
      · intro ev hmem _
        rw [List.mem_singleton.mp hmem]
        simp [Succeeded, hf]
      · intro ev hmem hno
        rw [List.mem_singleton.mp hmem] at hno
        exact absurd ⟨_, role_packet d cmd⟩ hno

/-! ### Keeping in step -/

/-- No packet is sent while an earlier command is half-finished. -/
def Link.InStep (l : Link) (tr : BusTrace) : Prop :=
  ∀ pre ev post, tr = pre ++ ev :: post → ev.1.IsPacket → (l.after pre).pending = none

/-- No packet is sent while an earlier command is half-finished, from the first
command on. -/
def InStep (tr : BusTrace) : Prop := Link.start.InStep tr

namespace Link

@[simp] theorem inStep_nil (l : Link) : l.InStep [] := by
  intro pre ev post h
  simp at h

theorem inStep_append {l : Link} {t₁ t₂ : BusTrace} :
    l.InStep (t₁ ++ t₂) ↔ l.InStep t₁ ∧ (l.after t₁).InStep t₂ := by
  constructor
  · intro h
    refine ⟨fun pre ev post heq hev => ?_, fun pre ev post heq hev => ?_⟩
    · exact h pre ev (post ++ t₂) (by simp [heq]) hev
    · rw [← Link.after_append]
      exact h (t₁ ++ pre) ev post (by simp [heq]) hev
  · intro h pre ev post heq hev
    rcases List.append_eq_append_iff.mp heq with ⟨a, rfl, ha⟩ | ⟨a, rfl, ha⟩
    · rw [Link.after_append]
      exact h.2 a ev post ha hev
    · cases a with
      | nil =>
          have hlast := h.2 [] ev post ha.symm hev
          simpa using hlast
      | cons b a =>
          obtain ⟨rfl, rfl⟩ := List.cons.inj ha
          exact h.1 pre ev a rfl hev

theorem inStep_cons {l : Link} {ev : Request × Completion} {tr : BusTrace} :
    l.InStep (ev :: tr) ↔ (ev.1.IsPacket → l.pending = none) ∧ (l.next ev).InStep tr := by
  rw [← List.singleton_append, inStep_append]
  refine and_congr_left fun _ => ?_
  constructor
  · intro h hev
    exact h [] ev [] rfl hev
  · intro h pre ev' post heq hev
    obtain ⟨rfl, rfl, rfl⟩ : pre = [] ∧ ev' = ev ∧ post = [] := by
      cases pre <;> simp_all
    exact h hev

instance decidableInStep : (l : Link) → (tr : BusTrace) → Decidable (l.InStep tr)
  | l, [] => isTrue (inStep_nil l)
  | l, ev :: tr =>
      have := decidableInStep (l.next ev) tr
      decidable_of_iff _ inStep_cons.symm

end Link

instance (tr : BusTrace) : Decidable (InStep tr) := inferInstanceAs (Decidable (Link.InStep _ _))

/-- In a script, only the first transfer is a packet. -/
theorem packet_first {d : Device} {cmd : Command} {data : List UInt8}
    {o : Outcome DeviceError Unit} {pre post : BusTrace} {ev : Request × Completion}
    (h : Attempt Request.failure Request.Stuck (cmd.script d data) (pre ++ ev :: post) o)
    (hev : ev.1.IsPacket) : pre = [] ∧ ev.1 = cmd.packet d := by
  have hpre := h.map_fst_prefix
  cases pre with
  | nil =>
      rw [List.nil_append, List.map_cons, Command.script, List.cons_prefix_cons] at hpre
      exact ⟨rfl, hpre.1⟩
  | cons p pre =>
      rw [List.cons_append, List.map_cons, Command.script, List.cons_prefix_cons] at hpre
      have hmem : ev.1 ∈ cmd.rest d data :=
        hpre.2.subset (List.mem_map_of_mem (List.mem_append_right _ (List.mem_cons_self ..)))
      exact absurd hev (not_isPacket_of_mem_rest hmem)

end PicotoolRs
