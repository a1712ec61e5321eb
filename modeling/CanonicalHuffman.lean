import CanonicalHuffman.Histogram.Blocks
import CanonicalHuffman.Tree.Forest
import CanonicalHuffman.CodeTable.Kraft
import CanonicalHuffman.Header
import CanonicalHuffman.Main
import CanonicalHuffman.Proofs.Walking
import CanonicalHuffman.Proofs.Balance
import CanonicalHuffman.Proofs.Rounds
import CanonicalHuffman.Proofs.Fitting
import CanonicalHuffman.Proofs.Shaping
import CanonicalHuffman.Proofs.Canonical
import CanonicalHuffman.Proofs.Messages
import CanonicalHuffman.Proofs.PrefixFree
import CanonicalHuffman.Proofs.Building
import CanonicalHuffman.Proofs.Tokens
import CanonicalHuffman.Proofs.Decoding
import CanonicalHuffman.Proofs.Headers
import CanonicalHuffman.Proofs.Printouts
import CanonicalHuffman.Proofs.Reports
import CanonicalHuffman.Proofs.Inspecting
import CanonicalHuffman.Proofs.Ranking
import CanonicalHuffman.Proofs.Searching
import CanonicalHuffman.Proofs.Allotments
import CanonicalHuffman.Proofs.Optimality
import CanonicalHuffman.Proofs.ClosedForm
import CanonicalHuffman.Proofs.Profiles
import CanonicalHuffman.Proofs.DepthOrder
import CanonicalHuffman.Proofs.Flattening
import CanonicalHuffman.Proofs.Cutting
import CanonicalHuffman.Proofs.Levelling
import CanonicalHuffman.Proofs.CheapRows
import CanonicalHuffman.Proofs.Borders
import CanonicalHuffman.Proofs.ShortestTokens
import CanonicalHuffman.Proofs.Budgets
import CanonicalHuffman.Proofs.Windows
import CanonicalHuffman.Proofs.NearlyEven
import CanonicalHuffman.Proofs.HeavyTrees
import CanonicalHuffman.Proofs.AlikeTrees
import CanonicalHuffman.Proofs.Scaling
import CanonicalHuffman.Proofs.Relabelling
import CanonicalHuffman.Proofs.CountTexts
import CanonicalHuffman.Proofs.MergeOrder
import CanonicalHuffman.Proofs.Visiting
