/-
  SimplicialNash
  ──────────────
  Approximate Nash equilibria of finite games by simplicial subdivision.
-/
import SimplicialNash.Capacity
import SimplicialNash.Circle
import SimplicialNash.Cli.Job
import SimplicialNash.Cli.Options
import SimplicialNash.Cli.Record
import SimplicialNash.Cli.Transcript
import SimplicialNash.Deviation
import SimplicialNash.Expectation
import SimplicialNash.Fault
import SimplicialNash.Game.Basic
import SimplicialNash.Game.Classic
import SimplicialNash.Game.Error
import SimplicialNash.Game.Json
import SimplicialNash.Game.PureProfile
import SimplicialNash.Game.Reader
import SimplicialNash.Game.Rule
import SimplicialNash.Game.Table
import SimplicialNash.Json.Scaled
import SimplicialNash.Json.Text
import SimplicialNash.Json.Token
import SimplicialNash.Json.Value
import SimplicialNash.Label
import SimplicialNash.Main
import SimplicialNash.Nfg.Reader
import SimplicialNash.Nfg.Token
import SimplicialNash.Number.Binary64
import SimplicialNash.Number.Digits
import SimplicialNash.Number.Fixed
import SimplicialNash.Number.Literal
import SimplicialNash.Number.Nearest
import SimplicialNash.Number.Power
import SimplicialNash.Number.Rounding
import SimplicialNash.Number.Shortest
import SimplicialNash.Number.Total
import SimplicialNash.Profile.Basic
import SimplicialNash.Profile.Error
import SimplicialNash.Profile.Text
import SimplicialNash.Proofs.Circle
import SimplicialNash.Proofs.Walk.Cell
import SimplicialNash.Proofs.Walk.Facet
import SimplicialNash.Random.ChaCha
import SimplicialNash.Random.Draw
import SimplicialNash.Refinement
import SimplicialNash.Settings
import SimplicialNash.Settings.Json
import SimplicialNash.Start
import SimplicialNash.StrategyTable
import SimplicialNash.Text.Blank
import SimplicialNash.Text.Lines
import SimplicialNash.Text.Terminal
import SimplicialNash.Walk.Move
import SimplicialNash.Walk.Pass
import SimplicialNash.Walk.Simplex
import SimplicialNash.Proofs.Walk.Beyond
import SimplicialNash.Proofs.Walk.Door
import SimplicialNash.Proofs.Walk.Chain
import SimplicialNash.Proofs.Walk.Simplex
import SimplicialNash.Proofs.Walk.Raster
import SimplicialNash.Proofs.Walk.Grid
import SimplicialNash.Proofs.Walk.Move
import SimplicialNash.Proofs.Deviation
import SimplicialNash.Proofs.Walk.Pass
import SimplicialNash.Proofs.Expectation
import SimplicialNash.Proofs.Walk.Regret
import SimplicialNash.Proofs.Incumbent
import SimplicialNash.Proofs.Refinement.Stages
import SimplicialNash.Proofs.Walk.Evaluated
import SimplicialNash.Proofs.Denominator
import SimplicialNash.Proofs.Refinement.Grid
import SimplicialNash.Proofs.Refinement.Convergence
import SimplicialNash.Proofs.Refinement.Best
import SimplicialNash.Proofs.Walk.Budget
import SimplicialNash.Proofs.Refinement.CutShort
import SimplicialNash.Proofs.Rescaling
import SimplicialNash.Proofs.Walk.Balance
import SimplicialNash.Proofs.Walk.Rescaling
import SimplicialNash.Proofs.Text
import SimplicialNash.Proofs.Number.Literal
import SimplicialNash.Proofs.Profile.Text
import SimplicialNash.Proofs.Dominance
import SimplicialNash.Proofs.Refinement.Dominance
import SimplicialNash.Proofs.Game.Json
import SimplicialNash.Proofs.Nfg.File
import SimplicialNash.Proofs.Nfg.Outcome
import SimplicialNash.Proofs.PureProfile
import SimplicialNash.Proofs.Equilibrium
import SimplicialNash.Proofs.Walk.Reconstruction
import SimplicialNash.Proofs.Walk.Flags
import SimplicialNash.Proofs.Walk.Labels
import SimplicialNash.Proofs.Walk.Ledger
import SimplicialNash.Proofs.Walk.Leash
import SimplicialNash.Proofs.Profile.Defect
import SimplicialNash.Proofs.Number.Grammar
import SimplicialNash.Proofs.Game.Numbering
import SimplicialNash.Proofs.Nfg.Prefix
import SimplicialNash.Proofs.Neighbours
import SimplicialNash.Proofs.StrategyTable.Layout
import SimplicialNash.Proofs.Start
