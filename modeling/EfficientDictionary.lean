import EfficientDictionary.Machine
import EfficientDictionary.Segment
import EfficientDictionary.Stable
import EfficientDictionary.Median
import EfficientDictionary.Footprint
import EfficientDictionary.CString
import EfficientDictionary.WordList
import EfficientDictionary.Reads
import EfficientDictionary.BaselineWordList
import EfficientDictionary.SaveWords
import EfficientDictionary.SavedFile
import EfficientDictionary.Idempotence
import EfficientDictionary.LoadFile
import EfficientDictionary.WordInts
import EfficientDictionary.Schedules
import EfficientDictionary.Pieces
import EfficientDictionary.Program
import EfficientDictionary.BaselineComparisons
import EfficientDictionary.ParallelComparisons
import EfficientDictionary.Nesting
import EfficientDictionary.Space
import EfficientDictionary.CriticalPath
