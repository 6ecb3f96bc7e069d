import TinyKernel.Buddy.Canonical
import TinyKernel.Memblock.Run
import TinyKernel.Memblock.Sets
import TinyKernel.Locks.LockFile
import TinyKernel.Locks.Deadlock
import TinyKernel.Percpu.Run
import TinyKernel.Userns.Tree
import TinyKernel.Asn1.Inside
import TinyKernel.SeqFile.Read
import TinyKernel.Genalloc.Live
import TinyKernel.Plist.Runs
import TinyKernel.Vmalloc.Runs
import TinyKernel.Zbud.Runs
import TinyKernel.Printk.Runs
import TinyKernel.Apparmor.Match
import TinyKernel.Sem.Atomic
import TinyKernel.Devcg.Failing
import TinyKernel.Filter.Stores
import TinyKernel.Percpu.Bounds
import TinyKernel.Selinux.EbitmapRead
import TinyKernel.Mmap.Unmapped
import TinyKernel.Kfifo.Init
import TinyKernel.Genalloc.Complete
import TinyKernel.Swap.Range
import TinyKernel.RadixTree.Iter
import TinyKernel.Rational.Approx
import TinyKernel.Division.Div64
import TinyKernel.Division.Reciprocal
import TinyKernel.Kstrtox.Parse
import TinyKernel.Buddy.Watermark
import TinyKernel.Memblock.Query
