import AlchemyDB.Lib.Store
import AlchemyDB.Lib.Weave
import AlchemyDB.Lib.Slots
import AlchemyDB.Lib.Assoc
import AlchemyDB.Lib.Bytes
import AlchemyDB.Lib.Stretch
import AlchemyDB.Lib.Lz
import AlchemyDB.BTree.Node
import AlchemyDB.BTree.Dirty
import AlchemyDB.BTree.View
import AlchemyDB.BTree.Tree
import AlchemyDB.BTree.Focus
import AlchemyDB.BTree.Site
import AlchemyDB.BTree.Page
import AlchemyDB.BTree.Search
import AlchemyDB.BTree.Insert
import AlchemyDB.BTree.Delete
import AlchemyDB.BTree.Merge
import AlchemyDB.BTree.Borrow
import AlchemyDB.BTree.Rebalance
import AlchemyDB.BTree.Order
import AlchemyDB.BTree.Descent
import AlchemyDB.BTree.Split
import AlchemyDB.BTree.Insertion
import AlchemyDB.BTree.Removal
import AlchemyDB.BTree.Deletion
import AlchemyDB.BTree.Erase
import AlchemyDB.BTree.Access
import AlchemyDB.BTree.Still
import AlchemyDB.BTree.Reading
import AlchemyDB.BTree.Clean
import AlchemyDB.BTree.Dirtied
import AlchemyDB.BTree.Path
import AlchemyDB.BTree.Fate
import AlchemyDB.BTree.Fixed
import AlchemyDB.BTree.Runs
import AlchemyDB.BTree.LogTable
import AlchemyDB.BTree.Widen
import AlchemyDB.BTree.DataSize
import AlchemyDB.BTree.Memory
import AlchemyDB.Catalog.Model
import AlchemyDB.Catalog.Slots
import AlchemyDB.Catalog.Consistent
import AlchemyDB.Catalog.Indexed
import AlchemyDB.Index.Model
import AlchemyDB.Index.Nest
import AlchemyDB.Index.Bottom
import AlchemyDB.Index.Holds
import AlchemyDB.Index.Multi
import AlchemyDB.Index.Undo
import AlchemyDB.Table.Model
import AlchemyDB.Table.Insert
import AlchemyDB.Index.Idle
import AlchemyDB.Table.Update
import AlchemyDB.Table.Expr
import AlchemyDB.Index.Take
import AlchemyDB.Index.Memory
import AlchemyDB.Table.Range
import AlchemyDB.Table.Rows
import AlchemyDB.Table.Track
import AlchemyDB.Table.Sync
import AlchemyDB.Table.Session
import AlchemyDB.Table.OrderBy
import AlchemyDB.Table.Normal
import AlchemyDB.Table.Unique
import AlchemyDB.Table.AutoInc
import AlchemyDB.Table.Cursor
import AlchemyDB.Row.Packed
import AlchemyDB.Row.Layout
import AlchemyDB.Format.Number
import AlchemyDB.Format.Hash
import AlchemyDB.Format.Probing
import AlchemyDB.Format.Sixbit
import AlchemyDB.Format.Write
import AlchemyDB.Format.Lzf
import AlchemyDB.Format.Read
import AlchemyDB.Format.Laid
import AlchemyDB.Format.Normal
import AlchemyDB.Format.RoundTrip
import AlchemyDB.Format.HashRow
import AlchemyDB.Format.HashMap
import AlchemyDB.Format.Geometry
import AlchemyDB.Format.Zip
import AlchemyDB.Format.Sparse
import AlchemyDB.Format.Transparent
import AlchemyDB.Format.Kept
import AlchemyDB.Format.Overwrite
import AlchemyDB.Format.Relocation
import AlchemyDB.Query.Filter
import AlchemyDB.Query.Agree
import AlchemyDB.Query.Lookup
import AlchemyDB.Query.Plan
import AlchemyDB.Query.Planned
import AlchemyDB.Text.Scan
import AlchemyDB.Text.Quoted
import AlchemyDB.Text.Values
import AlchemyDB.Text.Splitting
import AlchemyDB.Text.Assigned
import AlchemyDB.Text.Rows
import AlchemyDB.Text.Where
import AlchemyDB.Text.Keyword
import AlchemyDB.Text.CaseSearch
import AlchemyDB.Text.Predicates
import AlchemyDB.Text.Clauses
import AlchemyDB.Text.Filters
import AlchemyDB.Lua.Compile
import AlchemyDB.Lua.Cache
import AlchemyDB.Lua.Bound
import AlchemyDB.BTree.Unordered
import AlchemyDB.Rdb.File
import AlchemyDB.Rdb.Rows
import AlchemyDB.BTree.TextRange
import AlchemyDB.BTree.Offset
import AlchemyDB.BTree.FullOffset
import AlchemyDB.BTree.NumTree
import AlchemyDB.BTree.NumRange
import AlchemyDB.Rdb.Tables
import AlchemyDB.Rdb.RoundTrip
import AlchemyDB.Rdb.Dump
import AlchemyDB.Rdb.Streams
import AlchemyDB.Rdb.AutoInc
import AlchemyDB.BTree.Iterator
import AlchemyDB.BTree.Cursor
import AlchemyDB.BTree.Seek
import AlchemyDB.BTree.Jump
import AlchemyDB.BTree.Back
import AlchemyDB.BTree.BackSeek
import AlchemyDB.BTree.BackJump
import AlchemyDB.BTree.BackFull
import AlchemyDB.BTree.Ranged
import AlchemyDB.Table.Pending
import AlchemyDB.Table.Replace
import AlchemyDB.Index.Restore
import AlchemyDB.Text.U128
import AlchemyDB.Query.PassFilts
import AlchemyDB.Query.Serial
import AlchemyDB.Lib.Total
import AlchemyDB.Query.Select
import AlchemyDB.Query.Met
import AlchemyDB.Query.Count
import AlchemyDB.Query.Estimate
import AlchemyDB.Lib.Qsort
import AlchemyDB.Query.Sorting
import AlchemyDB.Query.ColumnCmp
import AlchemyDB.Query.ByPosition
import AlchemyDB.Query.JoinAlign
import AlchemyDB.BTree.Position
import AlchemyDB.Index.Lfu
import AlchemyDB.Format.Key
import AlchemyDB.Format.LzfRoundTrip
import AlchemyDB.Table.Trigger
import AlchemyDB.Table.Feed
import AlchemyDB.Text.Dump
import AlchemyDB.Text.Reload
import AlchemyDB.Table.Aof
import AlchemyDB.Query.Slice
import AlchemyDB.Query.Shown
import AlchemyDB.Query.Limit
import AlchemyDB.Query.Cut
import AlchemyDB.Query.Pages
