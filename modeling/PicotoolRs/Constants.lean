/-!
# PicotoolRs.Constants

The target's identity, the flash geometry and the protocol magics
(`constants.rs`). Constants that another one is computed from are computed the
same way here.
-/

namespace PicotoolRs.Constants

/-! ### USB identity -/

/-- USB vendor id of the RP2040 in BOOTSEL mode. -/
def vendorId : UInt16 := 0x2E8A

/-- USB product id of the RP2040 PICOBOOT interface. -/
def productId : UInt16 := 0x0003

/-- USB interface class of the PICOBOOT vendor interface. -/
def picobootInterfaceClass : UInt8 := 0xFF

/-! ### UF2 container -/

/-- First word of every 512-byte block. -/
def uf2MagicStart0 : UInt32 := 0x0A324655

/-- Second word of every 512-byte block. -/
def uf2MagicStart1 : UInt32 := 0x9E5D5157

/-- Final word of every 512-byte block. -/
def uf2MagicEnd : UInt32 := 0x0AB16F30

/-- Total size of a UF2 block in bytes. -/
def uf2BlockSize : Nat := 512

/-- Maximum payload bytes carried by a single UF2 block. -/
def uf2MaxPayload : Nat := 476

/-- Flag: the `file_size` field carries a family id. -/
def uf2FlagFamilyIdPresent : UInt32 := 0x00002000

/-- Flag: the block is not destined for the main flash. -/
def uf2FlagNotMainFlash : UInt32 := 0x00000001

/-- Family id of an RP2040 image. -/
def rp2040FamilyId : UInt32 := 0xE48BFF56

/-! ### Flash geometry -/

/-- Base address of the flash XIP window. -/
def flashStart : UInt32 := 0x10000000

/-- Conservative upper bound of the flash XIP window (16 MiB). -/
def flashEnd : UInt32 := flashStart + 16 * 1024 * 1024

/-- Flash erase sector size. -/
def flashSectorSize : UInt32 := 4096

/-- Flash program page size. -/
def flashPageSize : UInt32 := 256

/-- Top of SRAM. -/
def sramEnd : UInt32 := 0x20042000

/-! ### PICOBOOT protocol -/

/-- Magic word at the head of every 32-byte PICOBOOT command. -/
def picobootMagic : UInt32 := 0x431FD10B

/-- Vendor control request that resets the PICOBOOT interface, clearing any
half-finished command and stalled endpoint state. -/
def picobootIfReset : UInt8 := 0x41

/-! ### Flash-size detection -/

/-- SRAM address the flash-id stub is written to and executed from. -/
def stubAddr : UInt32 := 0x20000000

/-- SRAM address the stub writes the three JEDEC id bytes to. -/
def resultAddr : UInt32 := 0x20000080

/-- Thumb machine code that reads the flash JEDEC id and stores it at
`resultAddr`. -/
def flashIdStub : List UInt8 := [
  0x10, 0xb5, 0x18, 0x20, 0x00, 0x06, 0x00, 0x21, 0x81, 0x60, 0x07, 0x22,
  0x12, 0x04, 0x02, 0x60, 0x41, 0x60, 0x01, 0x22, 0x82, 0x60, 0x02, 0x61,
  0x9f, 0x22, 0x02, 0x66, 0x01, 0x66, 0x01, 0x66, 0x01, 0x66, 0x42, 0x6a,
  0x04, 0x2a, 0xfc, 0xd3, 0x20, 0x24, 0x24, 0x06, 0x80, 0x34, 0x02, 0x6e,
  0x02, 0x6e, 0x22, 0x70, 0x02, 0x6e, 0x62, 0x70, 0x02, 0x6e, 0xa2, 0x70,
  0x10, 0xbd]

/-- Smallest flash size accepted from runtime detection. -/
def minDetectedFlashSize : UInt32 := 64 * 1024

/-- Largest flash size accepted from runtime detection. -/
def maxDetectedFlashSize : UInt32 := flashEnd - flashStart

/-! ### As natural numbers -/

@[simp] theorem toNat_flashStart : flashStart.toNat = 0x10000000 := rfl

@[simp] theorem toNat_flashEnd : flashEnd.toNat = 0x11000000 := rfl

end PicotoolRs.Constants
