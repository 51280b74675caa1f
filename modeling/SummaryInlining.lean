import SummaryInlining.Main
import SummaryInlining.Analyzer.Tracing
import SummaryInlining.Summary.Substitution
import SummaryInlining.Summary.Encoding
import SummaryInlining.Trace.Stopwatch
import SummaryInlining.Proofs.WrongCalls
import SummaryInlining.Proofs.History
import SummaryInlining.Proofs.Warnings
import SummaryInlining.Proofs.Meaning
import SummaryInlining.Proofs.Provenance
import SummaryInlining.Proofs.Independence
import SummaryInlining.Proofs.SharedSupply
import SummaryInlining.Proofs.Extension
import SummaryInlining.Proofs.SummaryRoundTrip
import SummaryInlining.Proofs.TraceRecording
import SummaryInlining.Proofs.CommandTracing
import SummaryInlining.Proofs.AnalyzerHistory
import SummaryInlining.Proofs.SubstitutionLaws
import SummaryInlining.Proofs.CommandOutcome
import SummaryInlining.Proofs.FirstDefect
import SummaryInlining.Proofs.ArgumentGrammar
import SummaryInlining.Proofs.Conjunction
import SummaryInlining.Proofs.MergeLaws
import SummaryInlining.Proofs.NumberReading
import SummaryInlining.Proofs.PlainTerms
import SummaryInlining.Proofs.TermReading
import SummaryInlining.Proofs.UniqueReadability
import SummaryInlining.Proofs.PlayingTime
import SummaryInlining.Proofs.FaithfulKeys
