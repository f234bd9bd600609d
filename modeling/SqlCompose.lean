import SqlCompose.Format.Stored
import SqlCompose.KeyedSeq.Basic
import SqlCompose.Session
import SqlCompose.Proofs.KeyedSeq.Insertion
import SqlCompose.Proofs.KeyedSeq.SelfKeyed
import SqlCompose.Proofs.KeyedSeq.Merge
import SqlCompose.Proofs.KeyedSeq.Refinement
import SqlCompose.Proofs.Clause.Statement
import SqlCompose.Proofs.Session.Invariant
import SqlCompose.Proofs.Clause.WellFormed
import SqlCompose.Proofs.Clause.Composition
import SqlCompose.Proofs.Clause.Refusal
import SqlCompose.Proofs.Clause.Condition
import SqlCompose.Proofs.Clause.Log
import SqlCompose.Proofs.Clause.Placeholder
import SqlCompose.Proofs.Select.Absence
import SqlCompose.Proofs.Clause.Blank
import SqlCompose.Proofs.Session.Blank
import SqlCompose.Proofs.Clause.Written
import SqlCompose.Proofs.Select.Limit
import SqlCompose.Proofs.Select.Rendering
import SqlCompose.Proofs.Clause.Supplied
import SqlCompose.Proofs.Clause.Fresh
import SqlCompose.Proofs.Clause.Rival
import SqlCompose.Proofs.Text.Balanced
import SqlCompose.Proofs.Format.Nested
import SqlCompose.Proofs.Clause.Balanced
import SqlCompose.Proofs.Session.Balanced
import SqlCompose.Proofs.Select.Interleaving
import SqlCompose.Proofs.Select.Building
import SqlCompose.Proofs.Like.Matching
import SqlCompose.Proofs.Clause.Pattern
import SqlCompose.Proofs.Json.Writing
import SqlCompose.Proofs.Format.Stored
import SqlCompose.Proofs.Clause.Atomic
import SqlCompose.Proofs.Clause.FirstUse
import SqlCompose.Proofs.Select.Joining
import SqlCompose.Proofs.Clause.Membership
import SqlCompose.Proofs.Clause.Unnamed
import SqlCompose.Proofs.Clause.Range
import SqlCompose.Proofs.Clause.Repeated
import SqlCompose.Proofs.Clause.Segment
import SqlCompose.Proofs.Select.LatestLimit
import SqlCompose.Proofs.KeyedSeq.Surplus
import SqlCompose.Proofs.Select.ReplacedLimit
import SqlCompose.Proofs.Json.Grammar
import SqlCompose.Proofs.Json.Tokens
import SqlCompose.Proofs.Json.Skipping
import SqlCompose.Proofs.Format.Members
import SqlCompose.Proofs.Json.Truncation
import SqlCompose.Proofs.Format.Truncation
import SqlCompose.Proofs.Number.Digits
import SqlCompose.Proofs.Value.Text
import SqlCompose.Proofs.Json.Unambiguous
import SqlCompose.Proofs.Value.Dump
import SqlCompose.Proofs.Clause.Reported
import SqlCompose.Proofs.Clause.Layout
import SqlCompose.Proofs.Session.Tagged
import SqlCompose.Proofs.Text.Excerpt
import SqlCompose.Proofs.Like.Escaping
