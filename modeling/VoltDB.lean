import VoltDB.Storage.TableTupleFilter
import VoltDB.Storage.BlockLayout
import VoltDB.Storage.MarkerIterator
import VoltDB.Storage.FilterLifecycle
import VoltDB.Export.ExecutorFactory
import VoltDB.Export.FactorySteps
import VoltDB.Export.PoolSafety
import VoltDB.Export.ThreadSharing
import VoltDB.Export.ReferenceCounts
import VoltDB.Export.Lifecycle
import VoltDB.Export.Interleaving
