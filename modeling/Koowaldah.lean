import Koowaldah.Lib.Dyadic
import Koowaldah.Klist0
import Koowaldah.Arch
import Koowaldah.PageAlloc.Basic
import Koowaldah.Lib.Run
import Koowaldah.PageAlloc.Piles
import Koowaldah.PageAlloc.Runs
import Koowaldah.Bitmap
import Koowaldah.Fs.Basic
import Koowaldah.Fs.Bounds
import Koowaldah.Fs.Cpio
import Koowaldah.Fs.Fd
import Koowaldah.Fs.LongName
import Koowaldah.Fs.Open
import Koowaldah.Fs.Readdir
import Koowaldah.Fs.Unpack
import Koowaldah.Keyboard
import Koowaldah.Konfig
import Koowaldah.Kqueue.Basic
import Koowaldah.Kqueue.Fifo
import Koowaldah.Lib.DeltaLog
import Koowaldah.Lib.TwoLevel
import Koowaldah.MemArea.Alloc
import Koowaldah.MemArea.Copy
import Koowaldah.MemArea.Lists
import Koowaldah.Message.Basic
import Koowaldah.Message.Calls
import Koowaldah.Message.Content
import Koowaldah.MmZone
import Koowaldah.Mpipe.Basic
import Koowaldah.Mpipe.Stream
import Koowaldah.Paging.Basic
import Koowaldah.Paging.Frame
import Koowaldah.Profile
import Koowaldah.Slice.Basic
import Koowaldah.Slice.Isolation
import Koowaldah.Timers.Basic
import Koowaldah.Timers.Refine
import Koowaldah.Timers.Runs
import Koowaldah.Brk
import Koowaldah.Galloc
import Koowaldah.MemArea.Contig
import Koowaldah.MemArea.Fault
import Koowaldah.MemArea.Geometry
import Koowaldah.Slice.Lists
import Koowaldah.GetPages
import Koowaldah.Kqueue.Delivered
import Koowaldah.Kqueue.Failure
import Koowaldah.Kqueue.Statements
import Koowaldah.Kqueue.Windows
import Koowaldah.Message.Failure
import Koowaldah.Message.Length
import Koowaldah.Serial.Basic
import Koowaldah.Serial.Read
import Koowaldah.Timers.Failure
import Koowaldah.Fs.AllocFd
import Koowaldah.Fs.CpioEnd
import Koowaldah.Fs.FreeInode
import Koowaldah.Fs.PageMap
import Koowaldah.Fs.PathBuffers
import Koowaldah.Fs.PipeOpen
import Koowaldah.Exec
import Koowaldah.Fs.DeviceName
import Koowaldah.Paging.RootMap
import Koowaldah.Strtoul
import Koowaldah.Vsnprintf.Digits
import Koowaldah.Vsnprintf.Printf
import Koowaldah.Timers.Due
import Koowaldah.Symtab
import Koowaldah.KonfigFile
