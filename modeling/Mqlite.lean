import Mqlite.Mvcc.AbortInvisible
import Mqlite.Storage.StructuralBatch
import Mqlite.Storage.RunningSum
import Mqlite.PagedEngine.Snapshot
import Mqlite.PagedEngine.Insert
import Mqlite.PagedEngine.DropCross
import Mqlite.Btree.ChainPlacement
import Mqlite.Btree.Materialize
import Mqlite.Index.Snapshots
import Mqlite.Index.UniqueInstall
import Mqlite.Journal.LogFrontier
import Mqlite.Storage.ReconcilePlan
import Mqlite.Update.ArrayLaws
import Mqlite.Query.FindOptions
import Mqlite.Query.Equality
import Mqlite.PagedEngine.StoredDocs
import Mqlite.PagedEngine.TtlSweep
import Mqlite.PagedEngine.ReaderHorizon
