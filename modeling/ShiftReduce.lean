import ShiftReduce.Location
import ShiftReduce.Text.Printable
import ShiftReduce.Text.Quoted
import ShiftReduce.Double
import ShiftReduce.Double.Shortest
import ShiftReduce.Token
import ShiftReduce.Token.Lexer
import ShiftReduce.Ast
import ShiftReduce.Action
import ShiftReduce.Action.Reduce
import ShiftReduce.Identifier
import ShiftReduce.Table
import ShiftReduce.Table.Flat
import ShiftReduce.Parser
import ShiftReduce.Parser.Driver
import ShiftReduce.Numbering
import ShiftReduce.Symbol.Set
import ShiftReduce.Symbol.Registry
import ShiftReduce.Grammar.Lexeme
import ShiftReduce.Grammar.Error
import ShiftReduce.Grammar.Scanner
import ShiftReduce.Grammar
import ShiftReduce.Grammar.Reader
import ShiftReduce.Grammar.Parse
import ShiftReduce.Limits
import ShiftReduce.Production
import ShiftReduce.FixedPoint
import ShiftReduce.Analysis
import ShiftReduce.Reachability
import ShiftReduce.Item
import ShiftReduce.Collection
import ShiftReduce.Labelled
import ShiftReduce.Lookahead
import ShiftReduce.Completion
import ShiftReduce.Automaton
import ShiftReduce.Automaton.Dump
import ShiftReduce.Automaton.TableModule
import ShiftReduce.Command
import ShiftReduce.Command.Disk
import ShiftReduce.Main
import ShiftReduce.Proofs.Derivation
import ShiftReduce.Proofs.Analysis
import ShiftReduce.Proofs.Registry
import ShiftReduce.Proofs.Except
import ShiftReduce.Proofs.Names
import ShiftReduce.Proofs.Rules
import ShiftReduce.Proofs.Collection
import ShiftReduce.Proofs.Walk
import ShiftReduce.Proofs.Labelled
import ShiftReduce.Proofs.Lookahead
import ShiftReduce.Proofs.Completion
import ShiftReduce.Proofs.Automaton
import ShiftReduce.Proofs.Validity
import ShiftReduce.Proofs.Forest
import ShiftReduce.Proofs.StateStack
import ShiftReduce.Proofs.Run
import ShiftReduce.Proofs.Soundness
import ShiftReduce.Proofs.Simulation
import ShiftReduce.Proofs.Completeness
import ShiftReduce.Proofs.Termination
import ShiftReduce.Proofs.Rejection
import ShiftReduce.Proofs.Action
import ShiftReduce.Proofs.Safety
import ShiftReduce.Proofs.FixedPoint
import ShiftReduce.Proofs.Defect
import ShiftReduce.Proofs.Words
import ShiftReduce.Proofs.Kernels
import ShiftReduce.Proofs.Closure
import ShiftReduce.Proofs.Flat
import ShiftReduce.Proofs.Phrase
import ShiftReduce.Proofs.Reading
import ShiftReduce.Proofs.Registration
import ShiftReduce.Proofs.Gathering
import ShiftReduce.Proofs.Printing
import ShiftReduce.Proofs.Refinement
import ShiftReduce.Proofs.Acceptance
import ShiftReduce.Proofs.Provenance
import ShiftReduce.Proofs.Capacity
import ShiftReduce.Proofs.History
import ShiftReduce.Proofs.Settlement
import ShiftReduce.Proofs.Expansion
import ShiftReduce.Proofs.Literals
import ShiftReduce.Proofs.Decoding
import ShiftReduce.Proofs.Quotation
import ShiftReduce.Proofs.Positions
import ShiftReduce.Proofs.TableModule
import ShiftReduce.Proofs.Succession
import ShiftReduce.Proofs.Faults
import ShiftReduce.Proofs.Flattening
import ShiftReduce.Proofs.Labelling
import ShiftReduce.Proofs.Sufficiency
