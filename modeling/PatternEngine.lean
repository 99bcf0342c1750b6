import PatternEngine.Log
import PatternEngine.Proofs.Acceptance
import PatternEngine.Proofs.Grouping
import PatternEngine.Proofs.ProgramForm
import PatternEngine.Proofs.Recency
import PatternEngine.Proofs.Sequences
import PatternEngine.Proofs.Accounting
import PatternEngine.Proofs.CheckedRuns
import PatternEngine.Proofs.Completeness
import PatternEngine.Proofs.FlatPatterns
import PatternEngine.Proofs.Limits
import PatternEngine.Proofs.Classes
import PatternEngine.Proofs.Distances
import PatternEngine.Proofs.Refusals
import PatternEngine.Proofs.Spelling
import PatternEngine.Proofs.FirstFault
import PatternEngine.Proofs.Disassembly
import PatternEngine.Proofs.Groups
import PatternEngine.Proofs.RefusedJumps
import PatternEngine.Proofs.Listings
import PatternEngine.Proofs.ClassBodies
import PatternEngine.Proofs.Analysis
