import Makeroot.Config
import Makeroot.Recursion
import Makeroot.Project
import Makeroot.Download
import Makeroot.Selection
import Makeroot.HostPrograms
import Makeroot.Ubifs
import Makeroot.Placement
import Makeroot.CopyTree
import Makeroot.Leading
import Makeroot.Publish
import Makeroot.Containment
import Makeroot.Overlay
import Makeroot.Modes
import Makeroot.BothTrees
import Makeroot.Fuel
import Makeroot.ExprDups
import Makeroot.MenuTree
import Makeroot.Dependencies
