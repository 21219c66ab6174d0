import PicotoolRs.Device

/-!
# PicotoolRs.Device.Script

What the methods of `Device` put on the bus, command by command.

Every command has a `script`: its packet, its data phase if it has one, and its
acknowledgement. A method issues the transfers of one script in order and stops
at the first that fails; that, and how its outcome follows from it, is all later
proofs know of it (`execNoData_runs`, `flashWrite_runs`, `flashRead_runs`,
`reboot_runs`). Nothing outside this module unfolds a method.
-/

namespace PicotoolRs

open Lib Constants

/-! ### Transfers that fail -/

/-- Why a completion is rejected, if it is. -/
def Request.failure (r : Request) (c : Completion) : Option DeviceError :=
  match c.status with
  | .error source => some (.transfer r.op source)
  | .ok () =>
      match r.check with
      | .any => none
      | .exactly n =>
          if c.actualLen ≠ n then some (.shortTransfer r.op n c.actualLen) else none
      | .atLeast n =>
          if c.actualLen < n then some (.shortTransfer r.op n c.actualLen) else none

/-- The events of a run on the bus. -/
abbrev BusTrace := Trace Request Completion

/-- The transfer of an event completed successfully. -/
def Succeeded (ev : Request × Completion) : Prop := ev.1.failure ev.2 = none

instance (ev : Request × Completion) : Decidable (Succeeded ev) :=
  inferInstanceAs (Decidable (_ = _))

/-- The length passes the check. -/
def LengthCheck.Passes : LengthCheck → Nat → Prop
  | .any, _ => True
  | .exactly n, len => len = n
  | .atLeast n, len => n ≤ len

/-- A transfer succeeds by its status and the check of its length. -/
theorem succeeded_iff {r : Request} {c : Completion} :
    Succeeded (r, c) ↔ c.status = .ok () ∧ r.check.Passes c.actualLen := by
  unfold Succeeded Request.failure
  cases hstatus : c.status with
  | error source => simp
  | ok u => cases hcheck : r.check <;> simp [LengthCheck.Passes]

/-- The transfer is towards the host. -/
def Transfer.isIn : Transfer → Bool
  | .bulkIn _ => true
  | _ => false

/-- A completed transfer towards the host holds as many bytes as it reports. -/
def Conforming (ev : Request × Completion) : Prop :=
  ev.1.transfer.isIn → ev.2.status.isOk → ev.2.buffer.length = ev.2.actualLen

instance (ev : Request × Completion) : Decidable (Conforming ev) :=
  inferInstanceAs (Decidable (_ → _ → _))

/-- What a device reports that completes every transfer in full, and sends zeros.
-/
def Request.completed (r : Request) : Completion :=
  match r.transfer with
  | .controlOut _ _ _ => ⟨.ok (), 0, []⟩
  | .bulkOut buf => ⟨.ok (), buf.length, []⟩
  | .bulkIn requested => ⟨.ok (), requested, List.replicate requested 0⟩

/-! ### Requests -/

namespace Request

/-- OUT of the buffer, all of which has to be sent. -/
def out (buf : List UInt8) (op : Op) (timeout : Nat) : Request :=
  { op, transfer := .bulkOut buf, timeout, check := .exactly buf.length }

/-- IN of at least `len` bytes. -/
def inData (d : Device) (len : Nat) (op : Op) (timeout : Nat) : Request :=
  let packets := len / d.inMaxPacket + if len % d.inMaxPacket = 0 then 0 else 1
  { op, transfer := .bulkIn (max packets 1 * d.inMaxPacket), timeout, check := .atLeast len }

/-- The acknowledgement read by the host. -/
def inAck (d : Device) (op : Op) (timeout : Nat) : Request :=
  { op, transfer := .bulkIn d.inMaxPacket, timeout, check := .any }

/-- The acknowledgement written by the host. -/
def outAck (op : Op) : Request :=
  { op, transfer := .bulkOut [], timeout := commandTimeout, check := .any }

/-- The reset of the PICOBOOT interface. -/
def reset (d : Device) : Request :=
  { op := .interfaceReset, transfer := .controlOut picobootIfReset 0 d.ifNum.toUInt16,
    timeout := commandTimeout, check := .any }

/-- A read of no bytes at all, which panics on computing the number of packets
before it is issued. -/
def Stuck (r : Request) : Prop := r.op = .readData ∧ r.transfer = .bulkIn 0

/-- The bytes a read keeps of a completion. -/
def kept (r : Request) (c : Completion) : List UInt8 :=
  match r.op, r.check with
  | .readData, .atLeast len => c.buffer.take len
  | _, _ => []

end Request

/-- The bytes read in a trace. -/
def received (tr : BusTrace) : List UInt8 := tr.flatMap fun ev => ev.1.kept ev.2

/-- A conforming data transfer that passed holds the bytes that were asked for.
-/
theorem length_of_succeeded_inData {d : Device} {len timeout : Nat} {op : Op} {c : Completion}
    (hs : Succeeded (.inData d len op timeout, c)) (hc : Conforming (.inData d len op timeout, c)) :
    len ≤ c.buffer.length := by
  cases hstatus : c.status with
  | error source => simp [Succeeded, Request.failure, hstatus] at hs
  | ok u =>
      have hlen : c.buffer.length = c.actualLen := hc rfl (by rw [hstatus]; rfl)
      simpa [Succeeded, Request.failure, Request.inData, hstatus, hlen] using hs

namespace Command

/-- The label of the packet. -/
def packetOp : Command → Op
  | exclusiveAccess _ => .exclusiveAccess
  | exitXip => .exitXip
  | enterCmdXip => .enterCmdXip
  | exec _ => .exec
  | flashErase _ _ => .flashErase
  | write _ _ => .writeCommand
  | read _ _ => .readCommand
  | reboot _ _ _ => .reboot

/-- The label of the acknowledgement. -/
def ackOp : Command → Op
  | write _ _ => .writeAck
  | read _ _ => .readAck
  | reboot _ _ _ => .rebootAck
  | cmd => cmd.packetOp

/-- The timeout of the acknowledgement. -/
def ackTimeout : Command → Nat
  | flashErase _ _ => eraseTimeout
  | _ => commandTimeout

/-- The packet of the command. -/
def packet (d : Device) (cmd : Command) : Request :=
  .out (cmd.encode d.token) cmd.packetOp commandTimeout

/-- The transfers that follow the packet; `data` are the bytes of a data phase
towards the device. -/
def rest (d : Device) (cmd : Command) (data : List UInt8) : List Request :=
  match cmd.dataPhase with
  | .none => [.inAck d cmd.ackOp cmd.ackTimeout]
  | .hostToDevice _ =>
      [.out data .writeData commandTimeout, .inAck d cmd.ackOp cmd.ackTimeout]
  | .deviceToHost len =>
      [.inData d len.toNat .readData commandTimeout, .outAck cmd.ackOp]

/-- All transfers of the command. -/
def script (d : Device) (cmd : Command) (data : List UInt8) : List Request :=
  cmd.packet d :: cmd.rest d data

/-- A device that completes every transfer gets through a command that does not read.
-/
theorem succeeded_completed {d : Device} {cmd : Command} {data : List UInt8} {r : Request}
    (hr : r ∈ cmd.script d data) (hphase : ∀ n, cmd.dataPhase ≠ .deviceToHost n) :
    Succeeded (r, r.completed) := by
  rcases List.mem_cons.mp hr with rfl | hr
  · exact succeeded_iff.mpr ⟨rfl, rfl⟩
  · unfold rest at hr
    split at hr
    · obtain rfl := List.mem_singleton.mp hr
      rfl
    · simp only [List.mem_cons, List.not_mem_nil, or_false] at hr
      rcases hr with rfl | rfl
      · exact succeeded_iff.mpr ⟨rfl, rfl⟩
      · rfl
    · next n hn => exact absurd hn (hphase n)

/-- Only a command that reads panics, and only if the maximum packet size is
zero. -/
theorem not_stuck {d : Device} {cmd : Command} {data : List UInt8} {r : Request}
    (hr : r ∈ cmd.script d data)
    (h : (∀ n, cmd.dataPhase ≠ .deviceToHost n) ∨ 0 < d.inMaxPacket) : ¬ r.Stuck := by
  intro h
  obtain ⟨hop, htransfer⟩ := h
  rcases List.mem_cons.mp hr with rfl | hr
  · simp [packet, Request.out] at htransfer
  unfold rest at hr
  split at hr
  · obtain rfl := List.mem_singleton.mp hr
    cases cmd <;> simp [Request.inAck, ackOp, packetOp] at hop
  · rcases List.mem_cons.mp hr with rfl | hr
    · simp [Request.out] at htransfer
    · obtain rfl := List.mem_singleton.mp hr
      cases cmd <;> simp [Request.inAck, ackOp, packetOp] at hop
  · next n hphase =>
    rcases List.mem_cons.mp hr with rfl | hr
    · rcases h with h | h
      · exact h n hphase
      · simp only [Request.inData, Transfer.bulkIn.injEq, Nat.mul_eq_zero] at htransfer
        omega
    · obtain rfl := List.mem_singleton.mp hr
      simp [Request.outAck] at htransfer

end Command

/-! ### Single transfers -/

namespace Device

/-- The connection after drawing a token. -/
def bump (d : Device) : Device := { d with token := d.token + 1 }

@[simp] theorem bump_inMaxPacket (d : Device) : d.bump.inMaxPacket = d.inMaxPacket := rfl

theorem runs_nextToken_bind {α : Type} {f : UInt32 → Host α} {d d' : Device} {tr : BusTrace}
    {o : Outcome DeviceError α} :
    (nextToken >>= f).Runs d tr o d' ↔ (f d.bump.token).Runs d.bump tr o d' := Iff.rfl

theorem writeOut_eq (buf : List UInt8) (op : Op) (timeout : Nat) :
    writeOut buf op timeout =
      Session.checked Request.failure (.out buf op timeout) fun _ => () := by
  unfold writeOut Session.checked
  apply bind_congr
  intro c
  cases hc : c.status with
  | error source => simp [Request.failure, hc, Request.out]
  | ok u =>
      by_cases hlen : c.actualLen = buf.length <;>
        simp [Request.failure, hc, Request.out, hlen]

theorem readAck_eq (op : Op) (timeout : Nat) :
    readAck op timeout = (Session.get >>= fun d =>
      Session.checked Request.failure (.inAck d op timeout) fun _ => ()) := by
  unfold readAck Session.checked
  apply bind_congr
  intro d
  apply bind_congr
  intro c
  cases hc : c.status <;> simp [Request.failure, hc, Request.inAck]

theorem writeAck_eq (op : Op) :
    writeAck op = Session.checked Request.failure (.outAck op) fun _ => () := by
  unfold writeAck Session.checked
  apply bind_congr
  intro c
  cases hc : c.status <;> simp [Request.failure, hc, Request.outAck]

/-- Reading data panics if the maximum packet size is zero. -/
theorem readIn_eq (len : Nat) (op : Op) (timeout : Nat) :
    readIn len op timeout = (Session.get >>= fun d =>
      if d.inMaxPacket = 0 then Session.ofOutcome .panic
      else Session.checked Request.failure (.inData d len op timeout) fun c =>
        c.buffer.take len) := by
  unfold readIn Session.checked
  apply bind_congr
  intro d
  by_cases h0 : d.inMaxPacket = 0
  · simp [h0, divCeil]
  · simp only [divCeil, if_neg h0, Session.ofOption_some_bind]
    apply bind_congr
    intro c
    cases hc : c.status with
    | error source => simp [Request.failure, hc, Request.inData]
    | ok u =>
        by_cases hlen : c.actualLen < len <;> simp [Request.failure, hc, Request.inData, hlen]

section Attempts

variable {d : Device}

theorem writeOut_attempts (buf : List UInt8) (op : Op) (timeout : Nat) :
    (writeOut buf op timeout).Attempts Request.failure Request.Stuck d [.out buf op timeout] := by
  rw [writeOut_eq]
  exact Session.attempts_checked _ _

theorem readAck_attempts (op : Op) (timeout : Nat) :
    (readAck op timeout).Attempts Request.failure Request.Stuck d [.inAck d op timeout] := by
  rw [readAck_eq]
  exact Session.attempts_get_bind (Session.attempts_checked _ _)

theorem writeAck_attempts (op : Op) :
    (writeAck op).Attempts Request.failure Request.Stuck d [.outAck op] := by
  rw [writeAck_eq]
  exact Session.attempts_checked _ _

theorem readIn_attempts (len timeout : Nat) :
    (readIn len .readData timeout).Attempts Request.failure Request.Stuck d
      [.inData d len .readData timeout] := by
  rw [readIn_eq]
  refine Session.attempts_get_bind ?_
  by_cases h0 : d.inMaxPacket = 0
  · rw [if_pos h0]
    intro tr o d' h
    obtain ⟨rfl, rfl, rfl⟩ := Session.runs_ofOutcome.mp h
    exact ⟨rfl, .halt ⟨rfl, by simp [Request.inData, h0]⟩⟩
  · rw [if_neg h0]
    exact Session.attempts_checked _ _

end Attempts

/-- A read that returns, returns the first `len` bytes of the buffer. -/
theorem readIn_runs_ok {d d' : Device} {tr : BusTrace} {data : List UInt8} {len : Nat} {op : Op}
    {timeout : Nat} (h : (readIn len op timeout).Runs d tr (.ok data) d') :
    d' = d ∧ ∃ c, tr = [(.inData d len op timeout, c)] ∧
      Succeeded (.inData d len op timeout, c) ∧ data = c.buffer.take len := by
  rw [readIn_eq] at h
  have h : (if d.inMaxPacket = 0 then Session.ofOutcome .panic
      else Session.checked Request.failure (.inData d len op timeout) fun c =>
        c.buffer.take len).Runs d tr (.ok data) d' := h
  split at h
  · simp at h
  · obtain ⟨rfl, c, rfl, ho⟩ := Session.runs_checked.mp h
    cases hf : (Request.inData d' len op timeout).failure c with
    | some e => simp [hf] at ho
    | none => exact ⟨rfl, c, rfl, hf, by simpa [hf] using ho⟩

/-- An acknowledgement that is read is one transfer, whatever comes of it. -/
theorem readAck_runs {d d' : Device} {tr : BusTrace} {o : Outcome DeviceError Unit} {op : Op}
    {timeout : Nat} (h : (readAck op timeout).Runs d tr o d') :
    d' = d ∧ o ≠ .panic ∧ ∃ c, tr = [(.inAck d op timeout, c)] := by
  rw [readAck_eq] at h
  obtain ⟨rfl, c, rfl, ho⟩ := Session.runs_checked.mp h
  refine ⟨rfl, ?_, c, rfl⟩
  rw [ho]
  split <;> simp

/-! ### Commands -/

section Commands

variable {d d' : Device} {tr : BusTrace}

/-- A command without a data phase. -/
theorem execNoData_runs (cmd : Command) {o : Outcome DeviceError Unit}
    (hphase : cmd.dataPhase = .none) (hack : cmd.ackOp = cmd.packetOp)
    (h : (execNoData cmd cmd.packetOp cmd.ackTimeout).Runs d tr o d') :
    d' = d.bump ∧ Attempt Request.failure Request.Stuck (cmd.script d.bump []) tr o := by
  have hatt := Session.attempts_bind
    (writeOut_attempts (d := d.bump) (cmd.encode d.bump.token) cmd.packetOp commandTimeout)
    fun _ => readAck_attempts cmd.packetOp cmd.ackTimeout
  obtain ⟨hd, ha⟩ := hatt _ _ _ (runs_nextToken_bind.mp h)
  refine ⟨hd, ?_⟩
  simp only [Command.script, Command.rest, hphase, Command.packet, hack]
  cases o <;> exact ha

theorem flashWrite_runs {addr : UInt32} {data : List UInt8} {o : Outcome DeviceError Unit}
    (h : (flashWrite addr data).Runs d tr o d') :
    d' = d.bump ∧
      Attempt Request.failure Request.Stuck
        ((Command.write addr (U32.ofUsize data.length)).script d.bump data) tr o := by
  have hatt := Session.attempts_bind
    (writeOut_attempts (d := d.bump)
      ((Command.write addr (U32.ofUsize data.length)).encode d.bump.token) .writeCommand
      commandTimeout)
    fun _ => Session.attempts_bind (writeOut_attempts data .writeData commandTimeout)
      fun _ => readAck_attempts .writeAck commandTimeout
  obtain ⟨hd, ha⟩ := hatt _ _ _ (runs_nextToken_bind.mp h)
  exact ⟨hd, by cases o <;> exact ha⟩

/-- A read that returns has received its bytes in the one transfer between its
packet and its acknowledgement. -/
theorem flashRead_runs_ok {addr : UInt32} {len : Nat} {data : List UInt8}
    (h : (flashRead addr len).Runs d tr (.ok data) d') :
    ∃ c₁ c₂ c₃, tr = [((Command.read addr (U32.ofUsize len)).packet d.bump, c₁),
        (.inData d.bump len .readData commandTimeout, c₂), (.outAck .readAck, c₃)] ∧
      Succeeded (.inData d.bump len .readData commandTimeout, c₂) ∧ data = c₂.buffer.take len := by
  have hrun := runs_nextToken_bind.mp h
  simp only [writeOut_eq, writeAck_eq] at hrun
  rcases Session.runs_checked_bind.mp hrun with ⟨c, e, -, -, he, -⟩ | ⟨c₁, t₁, -, rfl, h₁⟩
  · simp at he
  obtain ⟨read, d₂, t₂, t₃, rfl, h₂, h₃⟩ := Session.runs_bind_ok h₁
  obtain ⟨rfl, c₂, rfl, hc₂, rfl⟩ := readIn_runs_ok h₂
  rcases Session.runs_checked_bind.mp h₃ with ⟨c, e, -, -, he, -⟩ | ⟨c₃, t₃, -, rfl, h₄⟩
  · simp at he
  obtain ⟨rfl, hdata, -⟩ := Session.runs_pure.mp h₄
  exact ⟨c₁, c₂, c₃, rfl, hc₂, by simpa using hdata⟩

/-- A read returns the bytes received. -/
theorem flashRead_runs {addr : UInt32} {len : Nat} {o : Outcome DeviceError (List UInt8)}
    (hlen : len < 2 ^ 32) (h : (flashRead addr len).Runs d tr o d') :
    d' = d.bump ∧
      Attempt Request.failure Request.Stuck
        ((Command.read addr (U32.ofUsize len)).script d.bump []) tr o.void ∧
      ∀ data, o = .ok data → data = received tr := by
  have hatt := Session.attempts_bind
    (writeOut_attempts (d := d.bump) ((Command.read addr (U32.ofUsize len)).encode d.bump.token)
      .readCommand commandTimeout)
    fun _ => Session.attempts_bind (readIn_attempts len commandTimeout)
      fun data => Session.attempts_bind (writeAck_attempts .readAck)
        fun _ => Session.attempts_pure data
  obtain ⟨hd, ha⟩ := hatt _ _ _ (runs_nextToken_bind.mp h)
  refine ⟨hd, ?_, ?_⟩
  · simp only [Command.script, Command.rest, Command.dataPhase, U32.toNat_ofUsize hlen]
    exact ha
  · intro data heq
    subst heq
    obtain ⟨c₁, c₂, c₃, rfl, -, rfl⟩ := flashRead_runs_ok h
    simp [received, Command.packet, Command.packetOp, Request.kept, Request.out, Request.inData,
      Request.outAck]

/-- A rejected packet is an error; the acknowledgement is not looked at. -/
theorem reboot_runs {pc sp delayMs : UInt32} {o : Outcome DeviceError Unit}
    (h : (reboot pc sp delayMs).Runs d tr o d') :
    d' = d.bump ∧
      let cmd := Command.reboot pc sp delayMs
      ((∃ c e, tr = [(cmd.packet d.bump, c)] ∧ (cmd.packet d.bump).failure c = some e ∧
          o = .err e) ∨
        ∃ c₁ c₂, tr = [(cmd.packet d.bump, c₁), (.inAck d.bump .rebootAck commandTimeout, c₂)] ∧
          Succeeded (cmd.packet d.bump, c₁) ∧ o = .ok ()) := by
  have hrun := runs_nextToken_bind.mp h
  simp only [writeOut_eq] at hrun
  rcases Session.runs_checked_bind.mp hrun with ⟨c, e, hf, rfl, rfl, hd⟩ | ⟨c₁, t₁, hf, rfl, h₁⟩
  · exact ⟨hd, .inl ⟨c, e, rfl, hf, rfl⟩⟩
  · rcases Session.runs_bind.mp h₁ with ⟨r, d₁, t₂, t₃, rfl, h₂, h₃⟩ | ⟨e, rfl, h₂⟩ | ⟨rfl, h₂⟩
    · have ho : o = .ok () ∧ d' = d₁ ∧ t₃ = [] := by
        split at h₃ <;> obtain ⟨rfl, rfl, rfl⟩ := Session.runs_pure.mp h₃ <;> exact ⟨rfl, rfl, rfl⟩
      obtain ⟨rfl, rfl, rfl⟩ := ho
      obtain ⟨o', hack⟩ : ∃ o', (readAck .rebootAck commandTimeout).Runs d.bump t₂ o' d' := by
        rcases Session.runs_asResult.mp h₂ with ⟨_, -, h⟩ | ⟨_, -, h⟩ | ⟨-, h⟩ <;> exact ⟨_, h⟩
      obtain ⟨rfl, -, c₂, rfl⟩ := readAck_runs hack
      exact ⟨rfl, .inr ⟨c₁, c₂, rfl, hf, rfl⟩⟩
    · rcases Session.runs_asResult.mp h₂ with ⟨_, h, -⟩ | ⟨_, h, -⟩ | ⟨h, -⟩ <;> simp at h
    · rcases Session.runs_asResult.mp h₂ with ⟨_, h, -⟩ | ⟨_, h, -⟩ | ⟨-, h⟩
      · simp at h
      · simp at h
      · exact absurd rfl (readAck_runs h).2.1

end Commands

theorem resetInterface_eq :
    resetInterface = (Session.get >>= fun d =>
      Session.checked Request.failure (.reset d) fun _ => ()) := by
  unfold resetInterface Session.checked
  apply bind_congr
  intro d
  apply bind_congr
  intro c
  cases hc : c.status <;> simp [Request.failure, hc, Request.reset]

/-- The reset is one transfer and leaves the connection as it is. -/
theorem resetInterface_runs {d d' : Device} {tr : BusTrace} {o : Outcome DeviceError Unit}
    (h : resetInterface.Runs d tr o d') : d' = d ∧ ∃ c, tr = [(.reset d, c)] := by
  rw [resetInterface_eq] at h
  obtain ⟨rfl, c, rfl, -⟩ := Session.runs_checked.mp
    (show (Session.checked Request.failure (.reset d) fun _ => ()).Runs d tr o d' from h)
  exact ⟨rfl, c, rfl⟩

end Device

end PicotoolRs
