import PicotoolRs.Bootsel
import PicotoolRs.Bootsel.Chip
import PicotoolRs.Bootsel.Complete
import PicotoolRs.Bootsel.Flash
import PicotoolRs.Bootsel.History
import PicotoolRs.Bootsel.Install
import PicotoolRs.Bootsel.Load
import PicotoolRs.Bootsel.Progress
import PicotoolRs.Bootsel.Reboot
import PicotoolRs.Bootsel.Retry
import PicotoolRs.Bootsel.Run
import PicotoolRs.Bootsel.Script
import PicotoolRs.Bootsel.Steps
import PicotoolRs.Bootsel.Verify
import PicotoolRs.Bootsel.Working
import PicotoolRs.Cli
import PicotoolRs.Cli.Grammar
import PicotoolRs.Constants
import PicotoolRs.Detect
import PicotoolRs.Device
import PicotoolRs.Device.Framing
import PicotoolRs.Device.Link
import PicotoolRs.Device.Script
import PicotoolRs.Lib.Bulk
import PicotoolRs.Lib.Chunks
import PicotoolRs.Lib.Cut
import PicotoolRs.Lib.Interaction
import PicotoolRs.Lib.Intervals
import PicotoolRs.Lib.Memory
import PicotoolRs.Lib.Nor
import PicotoolRs.Lib.Outcome
import PicotoolRs.Lib.Pages
import PicotoolRs.Lib.Peer
import PicotoolRs.Lib.Runs
import PicotoolRs.Lib.Thumb
import PicotoolRs.Lib.Thumb.Blocks
import PicotoolRs.Lib.U32
import PicotoolRs.Load
import PicotoolRs.Load.Cover
import PicotoolRs.Load.Order
import PicotoolRs.Load.Plan
import PicotoolRs.Load.Sectors
import PicotoolRs.Load.Steps
import PicotoolRs.Load.Verify
import PicotoolRs.Load.Wrap
import PicotoolRs.Main
import PicotoolRs.Picoboot
import PicotoolRs.Picoboot.Decode
import PicotoolRs.Reexec
import PicotoolRs.Reexec.Once
import PicotoolRs.Reexec.Strip
import PicotoolRs.Reexec.Transport
import PicotoolRs.Run.Command
import PicotoolRs.Run.Connect
import PicotoolRs.Run.Cost
import PicotoolRs.Run.Detect
import PicotoolRs.Run.Erase
import PicotoolRs.Run.Failures
import PicotoolRs.Run.Fallback
import PicotoolRs.Run.Flash
import PicotoolRs.Run.Framing
import PicotoolRs.Run.Guard
import PicotoolRs.Run.Image
import PicotoolRs.Run.InStep
import PicotoolRs.Run.Open
import PicotoolRs.Run.Order
import PicotoolRs.Run.Outgoing
import PicotoolRs.Run.Pages
import PicotoolRs.Run.Panics
import PicotoolRs.Run.Requests
import PicotoolRs.Run.Tokens
import PicotoolRs.Run.Wear
import PicotoolRs.Stub
import PicotoolRs.Stub.Detect
import PicotoolRs.Stub.Run
import PicotoolRs.Uf2
import PicotoolRs.Uf2.Combined
import PicotoolRs.Uf2.Concat
import PicotoolRs.Uf2.Empty
import PicotoolRs.Uf2.Errors
import PicotoolRs.Uf2.Format
import PicotoolRs.Uf2.Order
import PicotoolRs.Uf2.RoundTrip
import PicotoolRs.Uf2.Scan
import PicotoolRs.Uf2.Sound
