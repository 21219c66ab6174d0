import PicotoolRs.Device.Link
import PicotoolRs.Lib.Bulk

/-!
# PicotoolRs.Device.Framing

The device's side of the framing.

A device knows of a command only the header of its packet: the direction bit of
the command id and the transfer length. `Phase` is where it is with the command,
and `Phase.next` which transfer it takes part in next; any other transfer of the
host finds the device waiting for something else. `script_framed` is the
agreement: the transfers of a script take the device from idle to idle, if the
data is what the header declares.
-/

namespace PicotoolRs

open Lib

/-- What a packet says about the transfers after it: whether data goes towards
the host, and how much. -/
def header (packet : List UInt8) : Option (Bool × Nat) :=
  if packet.length = 32 then do
    let id ← packet[8]?
    let n ← rdU32 packet 12
    return (id &&& 0x80 ≠ 0, n.toNat)
  else none

/-- Where the device is with a command. -/
inductive Phase
  /-- It waits for a packet. -/
  | idle
  /-- It waits for this many bytes. -/
  | takesData (n : Nat)
  /-- It sends this many bytes. -/
  | sendsData (n : Nat)
  /-- It sends the acknowledgement. -/
  | sendsAck
  /-- It waits for the acknowledgement. -/
  | takesAck
  deriving Repr, DecidableEq

namespace Phase

/-- The phase after a packet. -/
def ofHeader : Bool × Nat → Phase
  | (_, 0) => sendsAck
  | (true, n + 1) => sendsData (n + 1)
  | (false, n + 1) => takesData (n + 1)

@[simp] theorem ofHeader_zero (isIn : Bool) : ofHeader (isIn, 0) = sendsAck := rfl

theorem ofHeader_in {n : Nat} (hn : 0 < n) : ofHeader (true, n) = sendsData n := by
  cases n with
  | zero => exact absurd hn (Nat.lt_irrefl 0)
  | succ n => rfl

theorem ofHeader_out {n : Nat} (hn : 0 < n) : ofHeader (false, n) = takesData n := by
  cases n with
  | zero => exact absurd hn (Nat.lt_irrefl 0)
  | succ n => rfl

/-- The phase after a transfer, if the device takes part in it. What it sends has
to end the transfer, and the transfer has to hold it. -/
def next (mps : Nat) : Phase → Transfer → Option Phase
  | idle, .bulkOut packet => (header packet).map ofHeader
  | takesData n, .bulkOut buf => if buf.length = n then some sendsAck else none
  | sendsData n, .bulkIn room =>
      if Bulk.receive mps room (Bulk.packets mps n) = some (n, []) then some takesAck else none
  | sendsAck, .bulkIn room =>
      if Bulk.receive mps room [0] = some (0, []) then some idle else none
  | takesAck, .bulkOut buf => if buf = [] then some idle else none
  | _, _ => none

/-- The phase after the transfers. -/
def after (mps : Nat) (phase : Phase) (rs : List Request) : Option Phase :=
  rs.foldlM (fun phase r => phase.next mps r.transfer) phase

@[simp] theorem after_nil (mps : Nat) (phase : Phase) : phase.after mps [] = some phase := rfl

@[simp] theorem after_cons (mps : Nat) (phase : Phase) (r : Request) (rs : List Request) :
    phase.after mps (r :: rs) = (phase.next mps r.transfer).bind fun p => p.after mps rs := rfl

theorem after_append (mps : Nat) (phase : Phase) (rs₁ rs₂ : List Request) :
    phase.after mps (rs₁ ++ rs₂) = (phase.after mps rs₁).bind fun p => p.after mps rs₂ := by
  rw [after, List.foldlM_append]
  rfl

end Phase

namespace Command

/-- The data phase has the length that the packet declares, and is not empty. -/
def Carries (cmd : Command) (data : List UInt8) : Prop :=
  match cmd.dataPhase with
  | .none => True
  | .hostToDevice n => 0 < n.toNat ∧ data.length = n.toNat
  | .deviceToHost n => 0 < n.toNat

/-- The header of a command's packet. -/
theorem header_encode (cmd : Command) (token : UInt32) :
    header (cmd.encode token) =
      some (decide (cmd.cmdId &&& 0x80 ≠ 0), cmd.transferLength.toNat) := by
  unfold header
  rw [if_pos (length_encode cmd token), encode_cmdId, rdU32_encode_transferLength]
  rfl

end Command

/-- The acknowledgement that is read is the device's. -/
theorem next_sendsAck {d : Device} (hmps : 0 < d.inMaxPacket) (op : Op) (timeout : Nat) :
    Phase.sendsAck.next d.inMaxPacket (Request.inAck d op timeout).transfer = some .idle := by
  rw [Request.inAck, Phase.next, Bulk.receive_short hmps (Nat.zero_le _), if_pos rfl]

/-- The buffer for data is one that the data ends exactly. -/
theorem next_sendsData {d : Device} (hmps : 0 < d.inMaxPacket) {n : Nat} (hn : 0 < n) (op : Op)
    (timeout : Nat) :
    (Phase.sendsData n).next d.inMaxPacket (Request.inData d n op timeout).transfer =
      some .takesAck := by
  have hexact := Bulk.receive_packets hmps hn
  rw [Bulk.packetCount] at hexact
  rw [Request.inData, Phase.next, hexact, if_pos rfl]

/-- The transfers of a script keep the device in step, from idle to idle. -/
theorem script_framed {d : Device} (hmps : 0 < d.inMaxPacket) {cmd : Command} {data : List UInt8}
    (hdata : cmd.Carries data) :
    Phase.idle.after d.inMaxPacket (cmd.script d data) = some .idle := by
  have hdir := cmd.cmdId_direction
  have hpacket : Phase.idle.next d.inMaxPacket (cmd.packet d).transfer =
      some (Phase.ofHeader (decide (cmd.cmdId &&& 0x80 ≠ 0), cmd.transferLength.toNat)) := by
    rw [Command.packet, Request.out, Phase.next, Command.header_encode, Option.map_some]
  unfold Command.Carries at hdata
  rw [Command.script, Phase.after_cons, hpacket, Option.bind_some, Command.rest]
  cases hphase : cmd.dataPhase with
  | none =>
      have hlen : cmd.transferLength = 0 := by rw [Command.transferLength, hphase]
      rw [hlen]
      simp [next_sendsAck hmps]
  | hostToDevice n =>
      rw [hphase] at hdata
      obtain ⟨hn, hlen⟩ := hdata
      have hout : ¬ (cmd.cmdId &&& 0x80 ≠ 0) := by
        rw [hdir, hphase]
        simp
      have hn' : cmd.transferLength = n := by rw [Command.transferLength, hphase]
      have hnext : (Phase.takesData n.toNat).next d.inMaxPacket
          (Request.out data .writeData commandTimeout).transfer = some .sendsAck := by
        rw [Request.out, Phase.next, if_pos hlen]
      rw [decide_eq_false hout, hn', Phase.ofHeader_out hn]
      simp [hnext, next_sendsAck hmps]
  | deviceToHost n =>
      rw [hphase] at hdata
      have hin : cmd.cmdId &&& 0x80 ≠ 0 := by
        rw [hdir, hphase]
        exact ⟨n, rfl⟩
      have hn' : cmd.transferLength = n := by rw [Command.transferLength, hphase]
      have hack : Phase.takesAck.next d.inMaxPacket (Request.outAck cmd.ackOp).transfer =
          some .idle := rfl
      rw [decide_eq_true hin, hn', Phase.ofHeader_in hdata]
      simp [next_sendsData hmps hdata, hack]

end PicotoolRs
