import EffectScript.CommandLine.Run
import EffectScript.Lexis.Scan
import EffectScript.Main
import EffectScript.Proofs.Condition
import EffectScript.Proofs.Conservation
import EffectScript.Proofs.Block
import EffectScript.Proofs.Meaning
import EffectScript.Proofs.Residue
import EffectScript.Proofs.Simulation
import EffectScript.Proofs.TreeSemantics
import EffectScript.Proofs.Reading
import EffectScript.Proofs.Ruling
import EffectScript.Proofs.Deeds
import EffectScript.Proofs.Moments
import EffectScript.Proofs.Undefinition
import EffectScript.Proofs.Renewal
import EffectScript.Proofs.Handover
import EffectScript.Proofs.Resolution
import EffectScript.Proofs.Passage
import EffectScript.Proofs.Places
import EffectScript.Proofs.DeadText
import EffectScript.Proofs.Confinement
import EffectScript.Proofs.FreshStart
import EffectScript.Proofs.Lockstep
import EffectScript.Proofs.Pasting
import EffectScript.Proofs.Accord
import EffectScript.Proofs.Spellings
import EffectScript.Proofs.Provenance
import EffectScript.Proofs.Lines
import EffectScript.Proofs.RejectedArm
import EffectScript.Proofs.Wording
import EffectScript.Proofs.StoredForm
import EffectScript.Proofs.Walks
import EffectScript.Proofs.Transparency
import EffectScript.Proofs.Coverage
import EffectScript.Proofs.Collision
import EffectScript.Proofs.Rereading
import EffectScript.Proofs.ShortestForms
import EffectScript.Proofs.GivenFile
import EffectScript.Proofs.BranchEnds
import EffectScript.Proofs.LineReading
import EffectScript.Proofs.OwnLine
import EffectScript.Proofs.Chain
import EffectScript.Proofs.Nesting
import EffectScript.Proofs.Trails
import EffectScript.Proofs.Echoes
import EffectScript.Proofs.Grammar
import EffectScript.Proofs.Inventory
import EffectScript.Proofs.Lexemes
import EffectScript.Proofs.DefinitionLine
import EffectScript.Proofs.Tagging
import EffectScript.Proofs.Tables
import EffectScript.Proofs.Truncation
import EffectScript.Proofs.NameChecksums
import EffectScript.Proofs.Extent
import EffectScript.Proofs.Tiling
import EffectScript.Proofs.Declarations
import EffectScript.Proofs.Hiding
import EffectScript.Proofs.Units
import EffectScript.Proofs.Matching
import EffectScript.Proofs.Facing
import EffectScript.Proofs.Assignments
import EffectScript.Proofs.Slips
import EffectScript.Proofs.Cutting
