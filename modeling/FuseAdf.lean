import FuseAdf.Library.NameWalk
import FuseAdf.Library.GuardedRun
import FuseAdf.Adflib.RamDisk
import FuseAdf.Adfimage.Resolution
import FuseAdf.Adffs.WorkingDirectory
import FuseAdf.Adffs.Permissions
import FuseAdf.Adffs.History
import FuseAdf.Adfimage.Targets
import FuseAdf.Library.Getopt
import FuseAdf.Adffs.DirectorySize
import FuseAdf.Adffs.Listing
import FuseAdf.Adffs.Transfer
import FuseAdf.Adfimage.Open
import FuseAdf.Library.WhileLoop
import FuseAdf.Options.ParseArgs
import FuseAdf.Options.Reading
import FuseAdf.Options.SingleThreaded
import FuseAdf.Adfimage.ChdirWalk
import FuseAdf.Adfimage.Restoring
import FuseAdf.Adffs.ReturnValues
import FuseAdf.Adffs.RootBlock
import FuseAdf.Adfimage.EntryNames
import FuseAdf.Adfimage.NameLookup
import FuseAdf.Path.Converting
import FuseAdf.Adffs.Renaming
import FuseAdf.Options.Items
import FuseAdf.Options.Documented
import FuseAdf.Adfimage.CwdStrings
import FuseAdf.Adffs.CwdBuffer
import FuseAdf.Path.DoubleSlashes
import FuseAdf.Path.PathNames
import FuseAdf.Adffs.DirectoryEntry
import FuseAdf.Adfimage.Links
import FuseAdf.Options.Partition
import FuseAdf.Library.GetoptBounds
import FuseAdf.Options.ArgVector
import FuseAdf.Library.GetoptCursor
import FuseAdf.Options.Letters
import FuseAdf.Options.ReadOnly
import FuseAdf.Options.Outcome
import FuseAdf.Adffs.Server
import FuseAdf.Adffs.Serving
import FuseAdf.Adffs.Changes
import FuseAdf.Adffs.Covering
import FuseAdf.Adffs.FileHandles
import FuseAdf.Adffs.Contents
import FuseAdf.Process.Main
import FuseAdf.Process.Session
import FuseAdf.Adflib.Naming
import FuseAdf.Adffs.Names
import FuseAdf.Adffs.Moved
