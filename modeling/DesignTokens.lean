import DesignTokens.Check.Themes
import DesignTokens.Color.Srgb
import DesignTokens.Main
import DesignTokens.Proofs.LastWrites
import DesignTokens.Proofs.DistinctKeys
import DesignTokens.Proofs.ShortNames
import DesignTokens.Project.Disk
import DesignTokens.Proofs.NameTables
import DesignTokens.Proofs.Leaves
import DesignTokens.Proofs.Records
import DesignTokens.Proofs.LeafSequence
import DesignTokens.Proofs.ReferenceMirror
import DesignTokens.Proofs.CallText
import DesignTokens.Proofs.ContentOrigins
import DesignTokens.Proofs.PropertyNames
import DesignTokens.Proofs.ScopeClashes
import DesignTokens.Proofs.ExpansionFaults
import DesignTokens.Proofs.FirstFault
import DesignTokens.Proofs.LeafPaths
import DesignTokens.Proofs.PathChecks
import DesignTokens.Proofs.DottedPaths
import DesignTokens.Proofs.RegisteredValues
import DesignTokens.Proofs.MediaUses
import DesignTokens.Proofs.DeclaredNames
import DesignTokens.Proofs.ResolvedValues
import DesignTokens.Proofs.SheetText
import DesignTokens.Proofs.SheetObject
import DesignTokens.Proofs.DiskPlaces
import DesignTokens.Proofs.DeskRuns
import DesignTokens.Proofs.BuildRuns
import DesignTokens.Proofs.CheckedBuilds
import DesignTokens.Proofs.OutputFiles
import DesignTokens.Proofs.Layout
import DesignTokens.Proofs.AlikeCompilations
import DesignTokens.Proofs.Rescoping
import DesignTokens.Proofs.NestedGroups
import DesignTokens.Proofs.AppendedTokens
import DesignTokens.Proofs.NameAssignments
import DesignTokens.Proofs.NameWarnings
import DesignTokens.Proofs.NotedRuns
import DesignTokens.Proofs.StoppedBuilds
import DesignTokens.Proofs.NearestNumbers
import DesignTokens.Proofs.NumberOrder
import DesignTokens.Proofs.DecimalTexts
import DesignTokens.Proofs.ShortestTexts
import DesignTokens.Proofs.ScaleValues
import DesignTokens.Proofs.NumberErrors
import DesignTokens.Proofs.WholeNumbers
import DesignTokens.Proofs.ColorTexts
import DesignTokens.Proofs.LightnessTenths
import DesignTokens.Proofs.ShadeOrder
import DesignTokens.Proofs.Nesting
import DesignTokens.Proofs.SingleCalls
import DesignTokens.Proofs.ColorCalls
import DesignTokens.Proofs.CommaSpacing
import DesignTokens.Proofs.DecimalPlaces
import DesignTokens.Proofs.HueTexts
import DesignTokens.Proofs.SettledColors
import DesignTokens.Proofs.NumeralTypes
import DesignTokens.Proofs.ScaleTypes
import DesignTokens.Proofs.LetterOrder
import DesignTokens.Proofs.Words
import DesignTokens.Proofs.LetterCase
import DesignTokens.Proofs.ColorGrammar
import DesignTokens.Proofs.ValueGrammar
import DesignTokens.Proofs.ClosedPieces
import DesignTokens.Proofs.KeptPieces
import DesignTokens.Proofs.SharedNames
