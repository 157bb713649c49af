import BranchFs.Cow.Create
import BranchFs.Cow.Metadata
import BranchFs.Cow.Traceless
import BranchFs.Cow.Trees
import BranchFs.Forest.Lifecycle
import BranchFs.Isolate.Frozen
import BranchFs.Isolate.Speculate
import BranchFs.Merge.Dirs
import BranchFs.Merge.History
import BranchFs.Merge.Hunks
import BranchFs.Merge.Review
import BranchFs.Merge.Rollback
import BranchFs.Merge.Scan
import BranchFs.Merge.Scope
import BranchFs.Merge.Tidy
import BranchFs.Mount.CtlNumbers
import BranchFs.Mount.Moves
import BranchFs.Mount.Notify
import BranchFs.Mount.Paging
import BranchFs.Mount.Setattr
import BranchFs.Mount.Tables
import BranchFs.Mount.Undone
import BranchFs.Quota.Exact
import BranchFs.Serve.Agent
import BranchFs.Serve.Review
import BranchFs.Store.Concurrent
import BranchFs.Store.Hidden
import BranchFs.Store.Migrate
import BranchFs.Store.Rescan
