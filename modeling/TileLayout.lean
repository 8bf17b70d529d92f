import TileLayout.Expr
import TileLayout.Box
import TileLayout.Layout
import TileLayout.Fragment
import TileLayout.Radix
import TileLayout.Repeat
import TileLayout.Valid
import TileLayout.Growth
import TileLayout.Gemm
import TileLayout.DeReplicate
import TileLayout.Inverse
import TileLayout.Stmt
import TileLayout.LoopPartition
import TileLayout.Swizzle
import TileLayout.VectorSize
import TileLayout.Flatten
import TileLayout.Bank
import TileLayout.Copy
import TileLayout.Partitioner
import TileLayout.Equal
import TileLayout.Fill
import TileLayout.Lower
import TileLayout.GemmPartition
