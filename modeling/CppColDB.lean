import CppColDB.Transaction.FastPath
import CppColDB.Transaction.CommittedDeletes
import CppColDB.Transaction.Rollback
import CppColDB.Planner.JoinCondition
import CppColDB.Storage.Blocks
import CppColDB.Execution.GroupBy
import CppColDB.Main.Clock
import CppColDB.Main.Crashes
import CppColDB.Transaction.CommitSteps
import CppColDB.Transaction.FailedCommit
import CppColDB.Transaction.NameRuns
import CppColDB.Main.ReplayInsert
import CppColDB.Execution.SelectedRows
import CppColDB.Execution.Connectives
import CppColDB.Storage.Column.Listing
import CppColDB.Storage.Column.BatchWrites
import CppColDB.Execution.FullArrays
