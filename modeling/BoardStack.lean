import BoardStack.Idr.Refine
import BoardStack.Radix.Refine
import BoardStack.Jffs2.Newest
import BoardStack.Raid5.Mapping
import BoardStack.Hrtimer
import BoardStack.Cmdlinepart
import BoardStack.Div64
import BoardStack.E820
import BoardStack.Lmb
import BoardStack.Rwsem
import BoardStack.Timer.Once
import BoardStack.Yaffs.FileMap
import BoardStack.IpFrag.Correct
import BoardStack.Compr.Rtime
import BoardStack.Bitmap.RangeList
import BoardStack.Bitmap.Region
import BoardStack.Bitmap.Remap
import BoardStack.Tftp
import BoardStack.Ntfs.MappingPairs
import BoardStack.Mtdparts.Current
import BoardStack.Sem
import BoardStack.Hugetlb.Region
import BoardStack.Filter.Sound
import BoardStack.Percpu.Area
import BoardStack.Resource.Tree
import BoardStack.Slob.Sound
import BoardStack.Locks.Range
import BoardStack.Locks.Refine
import BoardStack.Buddy.Sound
import BoardStack.Yaffs.EccOther
import BoardStack.SRecord
import BoardStack.Env
import BoardStack.Cmdline
import BoardStack.Textsearch.Bm
import BoardStack.Kfifo.Queue
