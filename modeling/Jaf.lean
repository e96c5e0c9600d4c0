import Jaf.Main
import Jaf.Proofs.Analysis.CheckIdempotence
import Jaf.Proofs.Analysis.ConstantRules
import Jaf.Proofs.Analysis.ContainerVersions
import Jaf.Proofs.Analysis.DeclarationOrder
import Jaf.Proofs.Analysis.NestingPreservation
import Jaf.Proofs.Analysis.ReturnTypes
import Jaf.Proofs.Analysis.TypeIdempotence
import Jaf.Proofs.Lexer.IntegerLimits
import Jaf.Proofs.Lexer.Lookahead
import Jaf.Proofs.Parser.DanglingElse
import Jaf.Proofs.Parser.Precedence
import Jaf.Proofs.Parser.RoundTrip
import Jaf.Proofs.Parser.SplitDeclarations
