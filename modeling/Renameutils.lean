import Renameutils.Display
import Renameutils.DisplayGroups
import Renameutils.PlanCount
import Renameutils.PlanClass
import Renameutils.PlanCopy
import Renameutils.ApplyFiles
import Renameutils.ApplyPlaces
import Renameutils.ApplySimulate
import Renameutils.BatchRun
import Renameutils.DiskPlans
import Renameutils.ApplyWork
import Renameutils.Quote
import Renameutils.EditSafe
import Renameutils.EditSwap
import Renameutils.DualIndicators
import Renameutils.SessionSafe
import Renameutils.SessionEdit
import Renameutils.SessionLive
import Renameutils.MainLoop
import Renameutils.Completion
import Renameutils.HMapRefines
import Renameutils.TMapRefines
import Renameutils.TMapIterate
import Renameutils.TMapVerify
import Renameutils.TMapMemory
import Renameutils.ListFiles
import Renameutils.ImportFile
import Renameutils.LsOutput
import Renameutils.IcmdMain
import Renameutils.IntUtil
import Renameutils.Deurlname
import Renameutils.StrBufExact
import Renameutils.StrBufPositions
import Renameutils.LListIndex
import Renameutils.LListFilter
import Renameutils.TabInt
import Renameutils.HMapNull
import Renameutils.TMapPtrcmp
import Renameutils.Getopt
import Renameutils.GetoptParse
import Renameutils.ListCommand
import Renameutils.QcmdMain
