import Lox.Main
import Lox.CommandLine.FileTree
import Lox.Syntax.Outline
import Lox.Proofs.Source.Tiling
import Lox.Proofs.Session.Joined
import Lox.Proofs.Session.Flow
import Lox.Proofs.Session.Rejected
import Lox.Proofs.Session.Identities
import Lox.Proofs.Scope.Lawful
import Lox.Proofs.Scope.Unused
import Lox.Proofs.Session.Walking
import Lox.Proofs.Session.Restored
import Lox.Proofs.Session.Receivers
import Lox.Proofs.Session.Initializers
import Lox.Proofs.Grammar.Lossless
import Lox.Proofs.Grammar.Inverse
import Lox.Proofs.Grammar.Range
import Lox.Proofs.Session.LoopFree
import Lox.Proofs.Evaluation.Untouched
import Lox.Proofs.CommandLine.Prompt
import Lox.Proofs.Session.Redeclared
import Lox.Proofs.Session.Capped
import Lox.Proofs.Session.WhileForms
import Lox.Proofs.Console.Answers
import Lox.Proofs.Grammar.Blocks
import Lox.Proofs.Source.Respaced
import Lox.Proofs.Evaluation.Forest
import Lox.Proofs.Number.ReadBack
import Lox.Proofs.Grammar.Unambiguous
import Lox.Proofs.Scope.Again
import Lox.Proofs.Session.Links
