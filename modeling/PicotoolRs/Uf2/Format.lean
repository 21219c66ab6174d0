import PicotoolRs.Uf2

/-!
# PicotoolRs.Uf2.Format

The UF2 container in its own terms: a file is a list of `Block`s, each a record
of ten fields laid out over 512 bytes.

`Block.toBytes` and `Block.read` are inverse to each other on blocks and on
chunks of 512 bytes, so a statement about every file whose length is a multiple
of 512 is a statement about every list of blocks (`exists_fileBytes`). The
theorems about `parse` are proved over block lists and carried to byte strings
by this correspondence.

`accepted` is what the parser is meant to take from a file: the payloads of its
main-flash RP2040 blocks, each placed at the block's target address.
-/

namespace PicotoolRs

open Lib Constants

/-- A UF2 block. -/
structure Block where
  magicStart0 : UInt32
  magicStart1 : UInt32
  flags : UInt32
  targetAddr : UInt32
  payloadSize : UInt32
  blockNo : UInt32
  numBlocks : UInt32
  familyId : UInt32
  /-- The payload and what follows it up to the final magic. -/
  data : List UInt8
  magicEnd : UInt32
  /-- The data area has the maximum payload size, whatever is declared. -/
  length_data : data.length = uf2MaxPayload
  deriving DecidableEq

namespace Block

/-- The 32 bytes before the data area. -/
def header (b : Block) : List UInt8 :=
  U32.toLeBytes b.magicStart0 ++ (U32.toLeBytes b.magicStart1 ++ (U32.toLeBytes b.flags ++
    (U32.toLeBytes b.targetAddr ++ (U32.toLeBytes b.payloadSize ++ (U32.toLeBytes b.blockNo ++
      (U32.toLeBytes b.numBlocks ++ U32.toLeBytes b.familyId))))))

/-- The 512 bytes of a block. -/
def toBytes (b : Block) : List UInt8 := b.header ++ (b.data ++ U32.toLeBytes b.magicEnd)

@[simp] theorem length_header (b : Block) : b.header.length = 32 := rfl

@[simp] theorem length_toBytes (b : Block) : b.toBytes.length = uf2BlockSize := by
  simp [toBytes, b.length_data, uf2MaxPayload, uf2BlockSize]

/-- The block whose bytes these are, if there are 512 of them. -/
def read (chunk : List UInt8) : Option Block := do
  let magicStart0 ← rdU32 chunk 0
  let magicStart1 ← rdU32 chunk 4
  let flags ← rdU32 chunk 8
  let targetAddr ← rdU32 chunk 12
  let payloadSize ← rdU32 chunk 16
  let blockNo ← rdU32 chunk 20
  let numBlocks ← rdU32 chunk 24
  let familyId ← rdU32 chunk 28
  let data ← slice chunk 32 508
  let magicEnd ← rdU32 chunk 508
  if h : data.length = uf2MaxPayload then
    some ⟨magicStart0, magicStart1, flags, targetAddr, payloadSize, blockNo, numBlocks, familyId,
      data, magicEnd, h⟩
  else none

/-- The block is for the RP2040's main flash: not flagged as something else,
and tagged with the RP2040 family id. -/
def isFlash (b : Block) : Bool :=
  b.flags &&& uf2FlagNotMainFlash = 0 && b.flags &&& uf2FlagFamilyIdPresent ≠ 0 &&
    b.familyId = rp2040FamilyId

/-- The declared payload. -/
def payload (b : Block) : List UInt8 := b.data.take b.payloadSize.toNat

/-- The payload at its target address. -/
def run (b : Block) : Run UInt8 := ⟨b.targetAddr.toNat, b.payload⟩

/-- The block the parser's tests build (`tests::block`). -/
def build (flags addr family : UInt32) (payload : List UInt8)
    (h : payload.length ≤ uf2MaxPayload) : Block where
  magicStart0 := uf2MagicStart0
  magicStart1 := uf2MagicStart1
  flags := flags
  targetAddr := addr
  payloadSize := U32.ofUsize payload.length
  blockNo := 0
  numBlocks := 1
  familyId := family
  data := payload ++ List.replicate (uf2MaxPayload - payload.length) 0
  magicEnd := uf2MagicEnd
  length_data := by
    rw [List.length_append, List.length_replicate]
    exact Nat.add_sub_cancel' h

theorem length_payload {b : Block} (h : b.payloadSize.toNat ≤ uf2MaxPayload) :
    b.payload.length = b.payloadSize.toNat := by
  rw [payload, List.length_take, b.length_data, Nat.min_eq_left h]

theorem stop_run {b : Block} (h : b.payloadSize.toNat ≤ uf2MaxPayload) :
    b.run.stop = b.targetAddr.toNat + b.payloadSize.toNat := by
  rw [Run.stop, run, length_payload h]

end Block

/-! ### Fields at their offsets -/

/-- Reading a word where it was put. -/
theorem rdU32_append (pre : List UInt8) (x : UInt32) (post : List UInt8) {off : Nat}
    (hoff : off = pre.length) : rdU32 (pre ++ (U32.toLeBytes x ++ post)) off = some x := by
  subst hoff
  have hx : U32.toLeBytes x = [UInt8.ofNat x.toNat, UInt8.ofNat (x.toNat / 2 ^ 8),
      UInt8.ofNat (x.toNat / 2 ^ 16), UInt8.ofNat (x.toNat / 2 ^ 24)] := rfl
  have hat : ∀ i, i < 4 →
      (pre ++ (U32.toLeBytes x ++ post))[pre.length + i]? = (U32.toLeBytes x)[i]? := by
    intro i hi
    rw [List.getElem?_append_right (Nat.le_add_right _ _), Nat.add_sub_cancel_left,
      List.getElem?_append_left (by simpa using hi)]
  have h0 := hat 0 (by decide)
  rw [Nat.add_zero] at h0
  rw [rdU32, h0, hat 1 (by decide), hat 2 (by decide), hat 3 (by decide)]
  exact congrArg some (U32.fromLeBytes_toLeBytes x hx)

theorem slice_append {pre mid post : List UInt8} {start stop : Nat} (hstart : start = pre.length)
    (hstop : stop = pre.length + mid.length) :
    slice (pre ++ (mid ++ post)) start stop = some mid := by
  subst hstart hstop
  rw [slice, if_pos ⟨Nat.le_add_right _ _, by simp only [List.length_append]; omega⟩,
    ← List.append_assoc, ← List.length_append, List.take_left, List.drop_left]

/-- Four bytes are those of a word. -/
theorem exists_toLeBytes {l : List UInt8} (h : l.length = 4) : ∃ x, U32.toLeBytes x = l := by
  obtain ⟨b₀, b₁, b₂, b₃, rfl⟩ : ∃ b₀ b₁ b₂ b₃, l = [b₀, b₁, b₂, b₃] := by
    match l, h with
    | [b₀, b₁, b₂, b₃], _ => exact ⟨_, _, _, _, rfl⟩
  exact ⟨_, U32.toLeBytes_fromLeBytes b₀ b₁ b₂ b₃⟩

/-- A list splits off its first word. -/
theorem exists_word_append {l : List UInt8} {n : Nat} (h : l.length = 4 + n) :
    ∃ x rest, l = U32.toLeBytes x ++ rest ∧ rest.length = n := by
  obtain ⟨x, hx⟩ := exists_toLeBytes (l := l.take 4) (by rw [List.length_take]; omega)
  exact ⟨x, l.drop 4, by rw [hx, List.take_append_drop], by rw [List.length_drop]; omega⟩

namespace Block

section Fields

variable (b : Block)

@[simp] theorem rdU32_magicStart0 : rdU32 b.toBytes 0 = some b.magicStart0 :=
  rdU32_append [] _ _ rfl

@[simp] theorem rdU32_magicStart1 : rdU32 b.toBytes 4 = some b.magicStart1 :=
  rdU32_append (b.header.take 4) _ _ rfl

@[simp] theorem rdU32_flags : rdU32 b.toBytes 8 = some b.flags :=
  rdU32_append (b.header.take 8) _ _ rfl

@[simp] theorem rdU32_targetAddr : rdU32 b.toBytes 12 = some b.targetAddr :=
  rdU32_append (b.header.take 12) _ _ rfl

@[simp] theorem rdU32_payloadSize : rdU32 b.toBytes 16 = some b.payloadSize :=
  rdU32_append (b.header.take 16) _ _ rfl

@[simp] theorem rdU32_blockNo : rdU32 b.toBytes 20 = some b.blockNo :=
  rdU32_append (b.header.take 20) _ _ rfl

@[simp] theorem rdU32_numBlocks : rdU32 b.toBytes 24 = some b.numBlocks :=
  rdU32_append (b.header.take 24) _ _ rfl

@[simp] theorem rdU32_familyId : rdU32 b.toBytes 28 = some b.familyId :=
  rdU32_append (b.header.take 28) _ _ rfl

@[simp] theorem rdU32_magicEnd : rdU32 b.toBytes 508 = some b.magicEnd := by
  have h : b.toBytes = (b.header ++ b.data) ++ (U32.toLeBytes b.magicEnd ++ []) := by
    simp [toBytes]
  rw [h]
  exact rdU32_append _ _ _ (by simp [b.length_data, uf2MaxPayload])

@[simp] theorem slice_data : slice b.toBytes 32 508 = some b.data :=
  slice_append rfl (by simp [b.length_data, uf2MaxPayload])

/-- The payload, cut out as the parser does it. -/
theorem slice_payload (h : b.payloadSize.toNat ≤ uf2MaxPayload) :
    slice b.toBytes 32 (32 + b.payloadSize.toNat) = some b.payload := by
  have hsplit : b.toBytes =
      b.header ++ (b.payload ++ (b.data.drop b.payloadSize.toNat ++ U32.toLeBytes b.magicEnd)) := by
    rw [toBytes, payload, ← List.append_assoc (b.data.take _), List.take_append_drop]
  rw [hsplit]
  exact slice_append rfl (by rw [length_header, length_payload h])

/-- Reading back the bytes of a block gives the block. -/
@[simp] theorem read_toBytes : read b.toBytes = some b := by
  simp [read, b.length_data]

end Fields

/-- Every chunk of 512 bytes is a block's. -/
theorem exists_toBytes {chunk : List UInt8} (h : chunk.length = uf2BlockSize) :
    ∃ b : Block, b.toBytes = chunk := by
  obtain ⟨m0, l, rfl, h₁⟩ := exists_word_append (n := 508) h
  obtain ⟨m1, l, rfl, h₂⟩ := exists_word_append (n := 504) h₁
  obtain ⟨fl, l, rfl, h₃⟩ := exists_word_append (n := 500) h₂
  obtain ⟨ad, l, rfl, h₄⟩ := exists_word_append (n := 496) h₃
  obtain ⟨sz, l, rfl, h₅⟩ := exists_word_append (n := 492) h₄
  obtain ⟨bn, l, rfl, h₆⟩ := exists_word_append (n := 488) h₅
  obtain ⟨nb, l, rfl, h₇⟩ := exists_word_append (n := 484) h₆
  obtain ⟨fm, l, rfl, h₈⟩ := exists_word_append (n := 480) h₇
  obtain ⟨me, hme⟩ := exists_toLeBytes (l := l.drop 476) (by rw [List.length_drop]; omega)
  refine ⟨⟨m0, m1, fl, ad, sz, bn, nb, fm, l.take 476, me, ?_⟩, ?_⟩
  · rw [List.length_take, h₈]
    rfl
  · simp [toBytes, header, hme]

end Block

/-! ### Files as lists of blocks -/

/-- The bytes of a list of blocks. -/
def fileBytes (bs : List Block) : List UInt8 := bs.flatMap Block.toBytes

/-- The blocks of a file. -/
def fileBlocks (bytes : List UInt8) : List Block :=
  (chunksExact uf2BlockSize bytes).filterMap Block.read

/-- The payloads of a file's main-flash RP2040 blocks, at their target
addresses, in file order. -/
def accepted (bs : List Block) : List (Run UInt8) := (bs.filter Block.isFlash).map Block.run

@[simp] theorem accepted_nil : accepted [] = [] := rfl

theorem accepted_cons (b : Block) (bs : List Block) :
    accepted (b :: bs) = if b.isFlash then b.run :: accepted bs else accepted bs := by
  by_cases h : b.isFlash <;> simp [accepted, h]

theorem accepted_append (bs bs' : List Block) :
    accepted (bs ++ bs') = accepted bs ++ accepted bs' := by
  simp [accepted]

theorem length_fileBytes (bs : List Block) : (fileBytes bs).length = bs.length * uf2BlockSize := by
  induction bs with
  | nil => simp [fileBytes]
  | cons b bs ih =>
      rw [fileBytes, List.flatMap_cons, List.length_append, Block.length_toBytes, List.length_cons,
        Nat.succ_mul, Nat.add_comm, ← ih, fileBytes]

/-- The chunks of a file are the bytes of its blocks. -/
theorem chunksExact_fileBytes (bs : List Block) :
    chunksExact uf2BlockSize (fileBytes bs) = bs.map Block.toBytes := by
  have hdvd : uf2BlockSize ∣ (fileBytes bs).length :=
    ⟨_, (length_fileBytes bs).trans (Nat.mul_comm _ _)⟩
  rw [chunksExact_eq_chunks hdvd, fileBytes, List.flatMap_def]
  refine chunks_flatten (by decide) fun l hl => ?_
  obtain ⟨b, -, rfl⟩ := List.mem_map.mp hl
  exact b.length_toBytes

/-- Decoding undoes encoding. -/
@[simp] theorem fileBlocks_fileBytes (bs : List Block) : fileBlocks (fileBytes bs) = bs := by
  rw [fileBlocks, chunksExact_fileBytes, List.filterMap_map]
  have hread : Block.read ∘ Block.toBytes = some :=
    funext fun b => by rw [Function.comp_apply, Block.read_toBytes]
  rw [hread, List.filterMap_some]

/-- Chunks of 512 bytes are the bytes of blocks. -/
theorem exists_map_toBytes {cs : List (List UInt8)} (h : ∀ c ∈ cs, c.length = uf2BlockSize) :
    ∃ bs : List Block, bs.map Block.toBytes = cs := by
  induction cs with
  | nil => exact ⟨[], rfl⟩
  | cons c cs ih =>
      obtain ⟨b, hb⟩ := Block.exists_toBytes (h c (List.mem_cons_self ..))
      obtain ⟨bs, hbs⟩ := ih fun c' hc' => h c' (List.mem_cons_of_mem _ hc')
      exact ⟨b :: bs, by rw [List.map_cons, hb, hbs]⟩

/-- Every file of a whole number of blocks is the bytes of its blocks. -/
theorem exists_fileBytes {bytes : List UInt8} (h : uf2BlockSize ∣ bytes.length) :
    ∃ bs, bytes = fileBytes bs := by
  have hpos : 0 < uf2BlockSize := by decide
  obtain ⟨bs, hbs⟩ := exists_map_toBytes fun c hc => length_of_mem_chunks_of_dvd hpos h hc
  exact ⟨bs, by rw [fileBytes, List.flatMap_def, hbs, flatten_chunks hpos]⟩

end PicotoolRs
