import TreeMan.Framework.SortedMap
import TreeMan.Framework.SortedSet
import TreeMan.Framework.BinarySearch
import TreeMan.Framework.Reachable
import TreeMan.Framework.Rose
import TreeMan.Framework.Except
import TreeMan.Impl.Bit
import TreeMan.Impl.FieldValue
import TreeMan.Impl.IndexField
import TreeMan.Impl.Text
import TreeMan.Impl.Filter
import TreeMan.Proof.IndexQuery
import TreeMan.Proof.FilterOperation
import TreeMan.Proof.FieldOrder
import TreeMan.Proof.History
import TreeMan.Proof.IndexPositions
import TreeMan.Impl.Group
import TreeMan.Proof.GroupTree
import TreeMan.Proof.Grouping
import TreeMan.Proof.NgramSearch
import TreeMan.Proof.Levels
import TreeMan.Proof.Bounds
import TreeMan.Proof.Narrowing
import TreeMan.Proof.LevelChain
import TreeMan.Proof.Builder
import TreeMan.Proof.FieldPaths
import TreeMan.Proof.TextPaths
import TreeMan.Proof.Navigation
import TreeMan.Proof.GroupViews
