import Clausal.Text.Identifier
import Clausal.Number.Fraction
import Clausal.Token.Lexer
import Clausal.Sentence.Variables
import Clausal.Sentence.Builder
import Clausal.SExpr
import Clausal.Sentence.Document
import Clausal.Theory.Parents
import Clausal.Theory.Document
import Clausal.Clause.Normalize
import Clausal.Clause.Stratification
import Clausal.Target.Compile
import Clausal.Facts.Prolog
import Clausal.Facts.Table
import Clausal.Main
import Clausal.Proofs.Occurrence
import Clausal.Proofs.Flattening
import Clausal.Proofs.Contribution
import Clausal.Proofs.Formulas
import Clausal.Proofs.Negations
import Clausal.Proofs.Literals
import Clausal.Proofs.Bodies
import Clausal.Proofs.Parts
import Clausal.Proofs.Entailment
import Clausal.Proofs.Normalization
import Clausal.Proofs.Ladders
import Clausal.Proofs.FirstOrder
import Clausal.Proofs.Reachability
import Clausal.Proofs.Refusal
import Clausal.Proofs.Stratification
import Clausal.Proofs.SouffleProgram
import Clausal.Proofs.Digits
import Clausal.Proofs.Rounding
import Clausal.Proofs.Shortest
import Clausal.Proofs.Lexemes
import Clausal.Proofs.Expressions
import Clausal.Proofs.SentenceDocuments
import Clausal.Proofs.SentenceReading
import Clausal.Proofs.ReadFaults
import Clausal.Proofs.SentenceRoundTrip
import Clausal.Proofs.TheoryBuilding
import Clausal.Proofs.FactAgreement
import Clausal.Proofs.TheoryDocuments
import Clausal.Proofs.TheoryRoundTrip
import Clausal.Proofs.Accounting
import Clausal.Proofs.LogicProgram
import Clausal.Proofs.SouffleAccounting
import Clausal.Proofs.ClauseShapes
import Clausal.Proofs.Compilation
import Clausal.Proofs.Declarations
import Clausal.Proofs.Permissions
import Clausal.Proofs.PrologFacts
import Clausal.Proofs.VariableNames
import Clausal.Proofs.Templates
import Clausal.Proofs.Emission
import Clausal.Proofs.Renormalization
import Clausal.Proofs.Constraints
import Clausal.Proofs.Comments
import Clausal.Proofs.RangeRestriction
import Clausal.Proofs.Merging
import Clausal.Proofs.ProverProblems
import Clausal.Proofs.DoubleNegation
import Clausal.Proofs.Conjunctions
import Clausal.Proofs.Approximation
import Clausal.Proofs.FractionWords
import Clausal.Proofs.Distances
import Clausal.Proofs.SimpleFractions
import Clausal.Proofs.ClosestFractions
import Clausal.Proofs.LexedTokens
import Clausal.Proofs.ExpressionGrammar
import Clausal.Proofs.ParentRules
import Clausal.Proofs.TypeResolution
import Clausal.Proofs.FactTables
import Clausal.Proofs.Substitution
import Clausal.Proofs.GroupPrograms
import Clausal.Proofs.Lexing
import Clausal.Proofs.OutputFiles
