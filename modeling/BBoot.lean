import BBoot.Common.Word
import BBoot.Common.Span
import BBoot.Pci.Windows
import BBoot.Pci.Pegasos2
import BBoot.Common.CString
import BBoot.Fdt.Basic
import BBoot.Fdt.Lookup
import BBoot.Fdt.Safety
import BBoot.Common.Endian
import BBoot.Zip.Reader
import BBoot.Zip.Archive
import BBoot.Zip.RoundTrip
import BBoot.Zip.Bounds
import BBoot.Common.Store
import BBoot.Boot.AosList
import BBoot.Boot.Zipkick
import BBoot.Boot.OfClaim
import BBoot.Boot.Regions
import BBoot.Boot.Modules
import BBoot.Boot.Text
import BBoot.Zip.Directory
import BBoot.Zip.EndRecord
import BBoot.Zip.Lookup
import BBoot.Boot.Length
import BBoot.Boot.MemorySize
import BBoot.Pci.Config
import BBoot.Pci.Devices
import BBoot.Pci.Decoding
import BBoot.Pci.Cells
import BBoot.Pci.CheckBus
import BBoot.Pci.Assigned
import BBoot.Common.Settle
import BBoot.Pci.Setup
import BBoot.Pci.Agreement
import BBoot.Boot.Calls
import BBoot.Boot.Items
import BBoot.Boot.Sections
import BBoot.Boot.Loading
import BBoot.Boot.Layout
import BBoot.Boot.Kicklayout
import BBoot.Pci.BarWalk
import BBoot.Pci.Buses
import BBoot.Pci.ConfigBytes
import BBoot.Pci.IoBars
import BBoot.Pci.Refused
import BBoot.Pci.Ports
import BBoot.Pci.Program
import BBoot.Pci.Frame
import BBoot.Boot.Sam460
import BBoot.Common.Chars
import BBoot.Boot.Options
import BBoot.Boot.Settings
import BBoot.Console.Output
import BBoot.Boot.NoClaim
import BBoot.Boot.Areas
import BBoot.Zip.Locality
import BBoot.Boot.Buffers
import BBoot.Boot.Refinement
import BBoot.Common.Bits
import BBoot.Common.Canonical
import BBoot.Inflate.Puff
import BBoot.Inflate.Decode
import BBoot.Inflate.Construct
import BBoot.Inflate.Format
import BBoot.Inflate.Codes
import BBoot.Inflate.Dynamic
import BBoot.Inflate.Blocks
import BBoot.Inflate.Encode
import BBoot.Inflate.Extend
import BBoot.Zip.Inflate
import BBoot.Libc.StringPpc
import BBoot.Libc.Strings
import BBoot.Libc.StringCopy
import BBoot.Libc.Blocks
import BBoot.Libc.Fill
import BBoot.Libc.Setjmp
