import Literate.Kernel.LostIpi
import Literate.Kernel.MessageDelivery
import Literate.Kernel.ProcessorRun
import Literate.Kernel.IdleProcessors
import Literate.Kernel.SpinLock
import Literate.Kernel.IdentityMap
import Literate.AK.JsonRfc
import Literate.AK.IntrusiveRedBlackTree
import Literate.AK.BufferedRun
import Literate.AK.FlyStringInterning
import Literate.AK.URLSettled
import Literate.AK.URLTraversal
import Literate.AK.URLStability
import Literate.AK.LEB128Signed
import Literate.AK.Singleton
import Literate.AK.Weakable
import Literate.AK.VectorFallible
import Literate.AK.JsonIntegers
import Literate.AK.JsonEquals
import Literate.AK.URLCredentials
import Literate.AK.URLFileForms
import Literate.AK.HashTableOrder
import Literate.AK.Utf8Validate
import Literate.AK.Base64Decoding
import Literate.AK.BigEndianBits
import Literate.AK.StringMatches
import Literate.AK.StringTrim
import Literate.AK.IntegerParsing
import Literate.AK.StringContains
import Literate.AK.StringReplace
import Literate.AK.StringViewOrder
import Literate.AK.StringLines
import Literate.AK.GenericLexerUnescape
import Literate.AK.GenericLexerEscapes
import Literate.AK.Utf16Offsets
import Literate.AK.Utf16Validate
import Literate.AK.LexicalPathRelative
import Literate.AK.TimeUnits
import Literate.AK.Calendar
import Literate.AK.BinarySearch
import Literate.AK.QuickSort
import Literate.AK.BinaryHeap
import Literate.AK.IntrusiveList
import Literate.AK.Queue
import Literate.AK.BitmapFind
import Literate.AK.BitmapRanges
import Literate.AK.Printf
import Literate.AK.BijectiveBase
import Literate.AK.TrieTraversal
import Literate.AK.SinglyLinkedList
import Literate.AK.UFixedBigIntSqrt
import Literate.AK.UFixedBigIntPow
import Literate.AK.Checked
import Literate.AK.BumpAllocator
import Literate.AK.IPv6Address
import Literate.AK.UUID
import Literate.Kernel.SafeMem
import Literate.Kernel.StackTrace
import Literate.Kernel.Timer
