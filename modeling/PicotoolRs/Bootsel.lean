import PicotoolRs.Device.Script
import PicotoolRs.Lib.Memory
import PicotoolRs.Lib.Nor
import PicotoolRs.Lib.Peer
import PicotoolRs.Picoboot.Decode

/-!
# PicotoolRs.Bootsel

The other end of the cable: a device in BOOTSEL mode, as the source's comments
and documents describe it.

A `Bootsel` looks at nothing but the wire. It takes a packet, then the data
phase, then exchanges the acknowledgement; it changes memory between the packet
and the acknowledgement, and leaves XIP and enters it again when it is told to.
A `Board` says how much flash there is behind it and what may come of a change
to memory, so that a worn chip is a board as well.

`Board.Reacts` adds the faults: a transfer that the host sees fail may have been
lost, or have come through in whole or in part. `Board.Obeys` is the device
without faults, which fails a transfer only if it is not the one it waits for.
-/

namespace PicotoolRs

open Lib Constants

/-- The address is one of flash. -/
def InFlash (a : Nat) : Prop := flashStart.toNat ≤ a ∧ a < flashEnd.toNat

instance (a : Nat) : Decidable (InFlash a) := inferInstanceAs (Decidable (_ ∧ _))

/-! ### Changes to memory -/

/-- A change to memory that a command asks for. -/
inductive Job
  | erase (addr size : UInt32)
  | write (addr : UInt32) (data : List UInt8)
  | exec (addr : UInt32)
  deriving Repr, DecidableEq

/-- The change is one at this address. Code that is executed may do what it likes
outside flash. -/
def Job.Touches : Job → Nat → Prop
  | erase addr size, a => addr.toNat ≤ a ∧ a < addr.toNat + size.toNat
  | write addr data, a => addr.toNat ≤ a ∧ a < addr.toNat + data.length
  | exec _, a => ¬ InFlash a

namespace Command

/-- The change that a command asks for, with the bytes of its data phase. -/
def job (cmd : Command) (data : List UInt8) : Option Job :=
  match cmd with
  | flashErase addr size => some (.erase addr size)
  | write addr _ => some (.write addr data)
  | exec addr => some (.exec addr)
  | _ => none

theorem job_of_no_data {cmd : Command} (h : cmd.dataPhase = .none) (data : List UInt8) :
    cmd.job data = cmd.job [] := by
  cases cmd with
  | write _ _ => simp [dataPhase] at h
  | _ => rfl

/-- The change that a command asks for as soon as its packet is there. -/
def prompt (cmd : Command) : Option Job :=
  match cmd.dataPhase with
  | .none => cmd.job []
  | _ => none

/-- Whether flash can be read as memory after the command. -/
def xipAfter (xip : Bool) : Command → Bool
  | exitXip => false
  | enterCmdXip => true
  | _ => xip

/-- The command reboots the device. -/
def isReboot : Command → Bool
  | reboot _ _ _ => true
  | _ => false

end Command

/-! ### The device -/

/-- Where the device is with a command. -/
inductive Stage
  /-- It waits for a packet. -/
  | idle
  /-- It waits for the data of a write. -/
  | takesData (addr size : UInt32)
  /-- It sends the data of a read. -/
  | sendsData (addr size : UInt32)
  /-- It sends the acknowledgement. -/
  | sendsAck
  /-- It waits for the acknowledgement. -/
  | takesAck
  deriving Repr, DecidableEq

/-- The state of the device. -/
structure Bootsel where
  stage : Stage
  /-- Flash can be read as memory. -/
  xip : Bool
  /-- A reboot has been accepted. -/
  rebooting : Bool
  mem : Nor.Memory

/-- The bytes in memory from `addr` on. -/
def content (m : Nor.Memory) (addr : UInt32) (n : Nat) : List UInt8 :=
  (List.range n).map fun i => m (addr.toNat + i)

@[simp] theorem length_content (m : Nor.Memory) (addr : UInt32) (n : Nat) :
    (content m addr n).length = n := by
  simp [content]

/-- Bytes are in memory if each one is at its address. -/
theorem content_eq_iff {m : Nor.Memory} {addr : UInt32} {data : List UInt8} :
    content m addr data.length = data ↔
      ∀ a v, (⟨addr.toNat, data⟩ : Run UInt8).Holds a v → m a = v := by
  constructor
  · intro h a v hv
    obtain ⟨hlo, hbyte⟩ := hv
    obtain ⟨i, rfl⟩ := Nat.exists_eq_add_of_le hlo
    dsimp only at hbyte
    rw [Nat.add_sub_cancel_left, ← h] at hbyte
    obtain ⟨_, hv⟩ := List.getElem?_eq_some_iff.mp hbyte
    simpa [content] using hv
  · intro h
    refine List.ext_getElem (length_content ..) fun i _ hi => ?_
    simp only [content, List.getElem_map, List.getElem_range]
    exact h _ _ ⟨Nat.le_add_right _ _, by simp [List.getElem?_eq_getElem hi]⟩

/-- The change that the device starts on when it takes a transfer. -/
def Bootsel.starts (b : Bootsel) (t : Transfer) : Option Job :=
  match b.stage, t with
  | .idle, .bulkOut packet => (Command.decode packet).bind fun x => x.1.prompt
  | .takesData addr size, .bulkOut buf => some (.write addr (buf.take size.toNat))
  | _, _ => none

/-- What is behind the protocol: the size of the flash, and what may come of a
change to memory. -/
structure Board where
  capacity : Nat
  does : Job → Nor.Memory → Nor.Memory → Prop

namespace Board

/-- The memory after a change, if there is one. -/
def Changes (board : Board) : Option Job → Nor.Memory → Nor.Memory → Prop
  | none, m, m' => m' = m
  | some job, m, m' => board.does job m m'

/-- The bytes lie in the flash there is. -/
def Contains (board : Board) (addr size : UInt32) : Prop :=
  flashStart.toNat ≤ addr.toNat ∧ addr.toNat + size.toNat ≤ flashStart.toNat + board.capacity

/-- The device carries out the command in this state. Flash is erased in whole
sectors and written outside XIP, and read in XIP. -/
def Accepts (board : Board) (b : Bootsel) (cmd : Command) : Prop :=
  b.rebooting = false ∧
    match cmd with
    | .flashErase addr size =>
        b.xip = false ∧ 4096 ∣ addr.toNat ∧ 4096 ∣ size.toNat ∧ board.Contains addr size
    | .write addr size =>
        0 < size.toNat ∧ (InFlash addr.toNat → b.xip = false ∧ board.Contains addr size)
    | .read addr size =>
        0 < size.toNat ∧ (InFlash addr.toNat → b.xip = true ∧ board.Contains addr size)
    | _ => True

/-- The device takes part in a transfer. -/
inductive Serve (board : Board) (b : Bootsel) : Transfer → Completion → Bootsel → Prop
  /-- The interface is reset. -/
  | reset {value index : UInt16} :
      Serve board b (.controlOut picobootIfReset value index) ⟨.ok (), 0, []⟩
        { b with stage := .idle }
  /-- A packet without a data phase is carried out. -/
  | command {packet : List UInt8} {cmd : Command} {token : UInt32} {m : Nor.Memory} :
      b.stage = .idle → Command.decode packet = some (cmd, token) → board.Accepts b cmd →
      cmd.dataPhase = .none → board.Changes (cmd.job []) b.mem m →
      Serve board b (.bulkOut packet) ⟨.ok (), packet.length, []⟩
        ⟨.sendsAck, cmd.xipAfter b.xip, cmd.isReboot, m⟩
  /-- A packet announces data. -/
  | write {packet : List UInt8} {addr size token : UInt32} :
      b.stage = .idle → Command.decode packet = some (.write addr size, token) →
      board.Accepts b (.write addr size) →
      Serve board b (.bulkOut packet) ⟨.ok (), packet.length, []⟩
        { b with stage := .takesData addr size }
  /-- A packet asks for data. -/
  | read {packet : List UInt8} {addr size token : UInt32} :
      b.stage = .idle → Command.decode packet = some (.read addr size, token) →
      board.Accepts b (.read addr size) →
      Serve board b (.bulkOut packet) ⟨.ok (), packet.length, []⟩
        { b with stage := .sendsData addr size }
  /-- Data is written. -/
  | takeData {addr size : UInt32} {buf : List UInt8} {m : Nor.Memory} :
      b.stage = .takesData addr size → buf.length = size.toNat →
      board.Changes (some (.write addr buf)) b.mem m →
      Serve board b (.bulkOut buf) ⟨.ok (), buf.length, []⟩ { b with stage := .sendsAck, mem := m }
  /-- Data is read. -/
  | sendData {addr size : UInt32} {room : Nat} :
      b.stage = .sendsData addr size → size.toNat ≤ room →
      Serve board b (.bulkIn room) ⟨.ok (), size.toNat, content b.mem addr size.toNat⟩
        { b with stage := .takesAck }
  | sendAck {room : Nat} : b.stage = .sendsAck →
      Serve board b (.bulkIn room) ⟨.ok (), 0, []⟩ { b with stage := .idle }
  | takeAck : b.stage = .takesAck →
      Serve board b (.bulkOut []) ⟨.ok (), 0, []⟩ { b with stage := .idle }

/-- What may be left of a transfer that failed: the device is where it was, or
where the transfer would have taken it, or has given up; it reboots only if it is
told to; memory has changed at most where the transfer is about to change it. -/
structure Disturbed (board : Board) (b : Bootsel) (t : Transfer) (b' : Bootsel) : Prop where
  stage : b'.stage = .idle ∨ b'.stage = b.stage ∨
    ∃ c b'', board.Serve b t c b'' ∧ b'.stage = b''.stage
  rebooting : b'.rebooting = b.rebooting ∨
    ∃ c b'', board.Serve b t c b'' ∧ b'.rebooting = b''.rebooting
  mem : ∀ a, b'.mem a ≠ b.mem a → ∃ job, b.starts t = some job ∧ job.Touches a

/-- A device with faults. -/
inductive Reacts (board : Board) : Peer Request Completion Bootsel
  | served {b b' : Bootsel} {r : Request} {c : Completion} :
      board.Serve b r.transfer c b' → Reacts board b r c b'
  /-- The host sees the transfer fail. -/
  | failed {b b' : Bootsel} {r : Request} {c : Completion} :
      r.failure c ≠ none → board.Disturbed b r.transfer b' → Reacts board b r c b'

/-- A device without faults: it takes part in every transfer it can take part in,
and fails the others. -/
inductive Obeys (board : Board) : Peer Request Completion Bootsel
  | served {b b' : Bootsel} {r : Request} {c : Completion} :
      board.Serve b r.transfer c b' → Obeys board b r c b'
  /-- The device waits for another transfer. -/
  | stalled {b : Bootsel} {r : Request} {e : TransferError} :
      (∀ c b', ¬ board.Serve b r.transfer c b') → Obeys board b r ⟨.error e, 0, []⟩ b

variable {board : Board} {b b' : Bootsel} {r : Request} {c : Completion}

theorem failure_of_error (r : Request) (e : TransferError) (n : Nat) (buf : List UInt8) :
    r.failure ⟨.error e, n, buf⟩ = some (.transfer r.op e) := rfl

/-- A device without faults is one with faults that has none. -/
theorem Obeys.reacts (h : board.Obeys b r c b') : board.Reacts b r c b' := by
  cases h with
  | served h => exact .served h
  | stalled _ => exact .failed (by simp [failure_of_error]) ⟨.inr (.inl rfl), .inl rfl, by simp⟩

/-- The device took part in a transfer that did not fail. -/
theorem Reacts.serve (h : board.Reacts b r c b') (hs : Succeeded (r, c)) :
    board.Serve b r.transfer c b' := by
  cases h with
  | served h => exact h
  | failed hf _ => exact absurd hs hf

/-- A device without faults always has an answer. -/
theorem obeys_total (board : Board) : Peer.Total board.Obeys := by
  intro b r
  by_cases h : ∃ c b', board.Serve b r.transfer c b'
  · obtain ⟨c, b', h⟩ := h
    exact ⟨c, b', .served h⟩
  · simp only [not_exists] at h
    exact ⟨_, b, .stalled (e := ⟨0⟩) h⟩

end Board

end PicotoolRs
