import PicotoolRs.Picoboot
import PicotoolRs.Uf2.Format

/-!
# PicotoolRs.Picoboot.Decode

The device's side of the encoding: what a packet of 32 bytes says, by the
documented layout. Whatever the tool puts on the wire as a packet is read back
as the command it meant (`decode_encode`), so the rest of the development can
speak of *commands* sent, while what is sent are bytes. The fields of the packet
agree with each other (`WireImage`): the direction bit with the data phase, the
length with the size argument, the argument bytes with the size field.
-/

namespace PicotoolRs

open Lib Constants

/-- The level a byte stands for. -/
def Exclusivity.ofByte : UInt8 → Option Exclusivity
  | 0 => some .notExclusive
  | 1 => some .exclusive
  | 2 => some .exclusiveAndEject
  | _ => none

@[simp] theorem Exclusivity.ofByte_toByte (level : Exclusivity) :
    ofByte level.toByte = some level := by
  cases level <;> rfl

namespace Command

/-- The command with this id, its arguments taken from `packet`. -/
def decodeArgs (packet : List UInt8) : UInt8 → Option Command
  | 0x01 => do return exclusiveAccess (← Exclusivity.ofByte (← packet[16]?))
  | 0x02 => do return reboot (← rdU32 packet 16) (← rdU32 packet 20) (← rdU32 packet 24)
  | 0x03 => do return flashErase (← rdU32 packet 16) (← rdU32 packet 20)
  | 0x05 => do return write (← rdU32 packet 16) (← rdU32 packet 20)
  | 0x06 => some exitXip
  | 0x07 => some enterCmdXip
  | 0x08 => do return exec (← rdU32 packet 16)
  | 0x84 => do return read (← rdU32 packet 16) (← rdU32 packet 20)
  | _ => none

/-- The command and the token of a packet. -/
def decode (packet : List UInt8) : Option (Command × UInt32) := do
  let magic ← rdU32 packet 0
  if magic = picobootMagic then
    return (← decodeArgs packet (← packet[8]?), ← rdU32 packet 4)
  else
    none

section Fields

variable (cmd : Command) (token : UInt32)

theorem rdU32_encode_magic : rdU32 (cmd.encode token) 0 = some picobootMagic := by
  rw [encode_eq, ← List.nil_append (U32.toLeBytes picobootMagic ++ _)]
  exact rdU32_append [] picobootMagic _ (by rw [List.length_nil])

theorem rdU32_encode_token : rdU32 (cmd.encode token) 4 = some token := by
  rw [encode_eq]
  exact rdU32_append (U32.toLeBytes picobootMagic) token _ (by rw [U32.length_toLeBytes])

theorem encode_cmdId : (cmd.encode token)[8]? = some cmd.cmdId := by
  simp [encode_eq, U32.toLeBytes]

theorem encode_cmdSize : (cmd.encode token)[9]? = some cmd.cmdSize := by
  simp [encode_eq, U32.toLeBytes]

theorem encode_reserved : (cmd.encode token)[10]? = some 0 ∧ (cmd.encode token)[11]? = some 0 := by
  simp [encode_eq, U32.toLeBytes]

theorem rdU32_encode_transferLength :
    rdU32 (cmd.encode token) 12 = some cmd.transferLength := by
  rw [encode_eq, ← List.append_assoc, ← List.append_assoc]
  exact rdU32_append _ cmd.transferLength _ (by simp)

theorem drop_encode : (cmd.encode token).drop 16 = cmd.args := by
  rw [encode_eq, ← List.append_assoc, ← List.append_assoc, ← List.append_assoc]
  exact List.drop_left' (by simp)

/-- The bytes of the arguments. -/
theorem encode_args (i : Nat) : (cmd.encode token)[16 + i]? = cmd.args[i]? := by
  rw [encode_eq]
  simp [U32.toLeBytes, Nat.add_comm 16]

/-- A word of the arguments. -/
theorem rdU32_encode_args (off : Nat) :
    rdU32 (cmd.encode token) (16 + off) = rdU32 cmd.args off := by
  simp only [rdU32, Nat.add_assoc, encode_args]

end Fields

/-- Arguments that start with the words `x`, `y` and `z` are read as such. -/
theorem rdU32_encode_words (cmd : Command) (token x y z w : UInt32)
    (h : cmd.args =
      U32.toLeBytes x ++ (U32.toLeBytes y ++ (U32.toLeBytes z ++ U32.toLeBytes w))) :
    rdU32 (cmd.encode token) 16 = some x ∧ rdU32 (cmd.encode token) 20 = some y ∧
      rdU32 (cmd.encode token) 24 = some z := by
  have h16 := rdU32_encode_args cmd token 0
  have h20 := rdU32_encode_args cmd token 4
  have h24 := rdU32_encode_args cmd token 8
  refine ⟨h16.trans ?_, h20.trans ?_, h24.trans ?_⟩
  · rw [h, ← List.nil_append (U32.toLeBytes x ++ _)]
    exact rdU32_append [] x _ (by rw [List.length_nil])
  · rw [h]
    exact rdU32_append (U32.toLeBytes x) y _ (by rw [U32.length_toLeBytes])
  · rw [h, ← List.append_assoc]
    exact rdU32_append (U32.toLeBytes x ++ U32.toLeBytes y) z _ (by simp)

/-- The arguments are read back from a packet. -/
theorem decodeArgs_encode (cmd : Command) (token : UInt32) :
    decodeArgs (cmd.encode token) cmd.cmdId = some cmd := by
  cases cmd with
  | exclusiveAccess level =>
      have h := encode_args (exclusiveAccess level) token 0
      have hargs : (exclusiveAccess level).args[0]? = some level.toByte := rfl
      simp only [cmdId, decodeArgs, h.trans hargs, Option.bind_eq_bind, Option.bind_some,
        Exclusivity.ofByte_toByte, Option.pure_def]
  | exitXip => rfl
  | enterCmdXip => rfl
  | exec addr =>
      obtain ⟨h, -, -⟩ := rdU32_encode_words (exec addr) token addr 0 0 0 rfl
      simp [cmdId, decodeArgs, h]
  | flashErase addr size =>
      obtain ⟨h0, h1, -⟩ := rdU32_encode_words (flashErase addr size) token addr size 0 0 rfl
      simp [cmdId, decodeArgs, h0, h1]
  | write addr size =>
      obtain ⟨h0, h1, -⟩ := rdU32_encode_words (write addr size) token addr size 0 0 rfl
      simp [cmdId, decodeArgs, h0, h1]
  | read addr size =>
      obtain ⟨h0, h1, -⟩ := rdU32_encode_words (read addr size) token addr size 0 0 rfl
      simp [cmdId, decodeArgs, h0, h1]
  | reboot pc sp delayMs =>
      obtain ⟨h0, h1, h2⟩ := rdU32_encode_words (reboot pc sp delayMs) token pc sp delayMs 0 rfl
      simp [cmdId, decodeArgs, h0, h1, h2]

/-- Decoding a packet gives back its command and token. -/
@[simp] theorem decode_encode (cmd : Command) (token : UInt32) :
    decode (cmd.encode token) = some (cmd, token) := by
  simp only [decode, rdU32_encode_magic, rdU32_encode_token, encode_cmdId, decodeArgs_encode,
    Option.bind_eq_bind, Option.bind_some, if_true, Option.pure_def]

/-! ### The wire image -/

/-- The arguments of a command, one after the other. -/
def argBytes : Command → List UInt8
  | exclusiveAccess level => [level.toByte]
  | exitXip | enterCmdXip => []
  | exec addr => U32.toLeBytes addr
  | flashErase addr size | write addr size | read addr size =>
      U32.toLeBytes addr ++ U32.toLeBytes size
  | reboot pc sp delayMs => U32.toLeBytes pc ++ U32.toLeBytes sp ++ U32.toLeBytes delayMs

theorem length_argBytes (cmd : Command) : cmd.argBytes.length = cmd.cmdSize.toNat := by
  cases cmd <;> rfl

/-- The arguments fill the front of their region; the rest is zero. -/
theorem args_eq (cmd : Command) :
    cmd.args = cmd.argBytes ++ List.replicate (16 - cmd.cmdSize.toNat) 0 := by
  cases cmd <;> rfl

/-- Bit 7 of the command id is set for a data phase towards the host. -/
theorem cmdId_direction (cmd : Command) :
    cmd.cmdId &&& 0x80 ≠ 0 ↔ ∃ n, cmd.dataPhase = .deviceToHost n := by
  cases cmd <;> simp only [cmdId, dataPhase, reduceCtorEq, exists_false, exists_eq', iff_true,
    iff_false, DataPhase.deviceToHost.injEq] <;> decide

/-- The packet is the image of the command and the token, field by field. -/
structure WireImage (cmd : Command) (token : UInt32) (packet : List UInt8) : Prop where
  length : packet.length = 32
  /-- A decoder gets back the command and the token. -/
  decodes : decode packet = some (cmd, token)
  magic : rdU32 packet 0 = some picobootMagic
  /-- Bit 7 of the command id is set exactly for a data phase towards the host. -/
  direction : ∃ id, packet[8]? = some id ∧
    (id &&& 0x80 ≠ 0 ↔ ∃ n, cmd.dataPhase = .deviceToHost n)
  /-- The arguments are as many bytes as the size field says, and only zeros
  follow them. -/
  arguments : ∃ size, packet[9]? = some size ∧ cmd.argBytes.length = size.toNat ∧
    packet.drop 16 = cmd.argBytes ++ List.replicate (16 - size.toNat) 0
  reserved : packet[10]? = some 0 ∧ packet[11]? = some 0
  /-- The length of the data phase, zero if there is none. -/
  transferLength : rdU32 packet 12 = some (match cmd.dataPhase with
    | .none => 0
    | .hostToDevice n | .deviceToHost n => n)
  /-- Of a read or write it is the size argument as well. -/
  size : ∀ addr size, cmd = .read addr size ∨ cmd = .write addr size →
    rdU32 packet 12 = some size ∧ rdU32 packet 20 = some size

/-- The encoding is consistent, and different commands or tokens have different
packets. -/
theorem encode_wireImage (cmd : Command) (token : UInt32) :
    WireImage cmd token (cmd.encode token) ∧
      ∀ cmd' token', cmd'.encode token' = cmd.encode token → cmd' = cmd ∧ token' = token := by
  refine ⟨⟨length_encode cmd token, decode_encode cmd token, rdU32_encode_magic cmd token,
    ⟨_, encode_cmdId cmd token, cmdId_direction cmd⟩,
    ⟨_, encode_cmdSize cmd token, length_argBytes cmd, ?_⟩, encode_reserved cmd token,
    rdU32_encode_transferLength cmd token, ?_⟩, ?_⟩
  · rw [drop_encode, args_eq]
  · intro addr size hcmd
    have hlen := rdU32_encode_transferLength cmd token
    rcases hcmd with rfl | rfl
    · obtain ⟨-, h20, -⟩ := rdU32_encode_words (read addr size) token addr size 0 0 rfl
      exact ⟨hlen, h20⟩
    · obtain ⟨-, h20, -⟩ := rdU32_encode_words (write addr size) token addr size 0 0 rfl
      exact ⟨hlen, h20⟩
  · intro cmd' token' heq
    have hdecode := decode_encode cmd' token'
    rw [heq, decode_encode] at hdecode
    obtain ⟨rfl, rfl⟩ := Prod.mk.inj (Option.some.inj hdecode)
    exact ⟨rfl, rfl⟩

end Command

end PicotoolRs
