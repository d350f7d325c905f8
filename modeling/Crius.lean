import Crius.Process.Wakeup
import Crius.Drivers.Console
import Crius.Process.Descriptors
import Crius.Process.EagerCopy
import Crius.Process.ArgPage
import Crius.Process.FrameRefs
import Crius.Process.ExitStatus
import Crius.Process.RoundRobin
import Crius.Usb.Keyboard
import Crius.Syscall.Wait
import Crius.Mm.Conservation
import Crius.Process.ElfCorrect
import Crius.Drivers.Keyboard
import Crius.Fs.MountOrder
import Crius.Fs.RamfsNames
import Crius.Fs.WorkingDir
import Crius.Fs.AccessMode
import Crius.Ext2.Superblock
import Crius.Ext2.ReadRange
import Crius.Ext2.Create
import Crius.Ext2.InodeSlots
import Crius.Mm.HeapMisuse
import Crius.Process.Sleep
import Crius.Arch.Madt
import Crius.Usb.ConfigDescriptor
import Crius.Nexus.Editor
import Crius.Nexus.History
import Crius.Nexus.Words
import Crius.Drivers.IdeContents
import Crius.Syscall.UserString
import Crius.Drivers.Pci
