import Ganesha.Mdcache.ExportMap
import Ganesha.Mdcache.Cache
import Ganesha.Mdcache.Unexport
import Ganesha.Mdcache.Discipline
import Ganesha.Mdcache.Concurrent
import Ganesha.Mdcache.Progress
import Ganesha.Mdcache.Refinement
import Ganesha.Mdcache.Stacking
import Ganesha.Mdcache.CreateExport
import Ganesha.Mdcache.Avl
import Ganesha.Mdcache.DirentIndex
import Ganesha.Admin.Thread
import Ganesha.Admin.CString
import Ganesha.Admin.Dbus
