import NameLookup.Source.LineMap
import NameLookup.Interner
import NameLookup.Session
import NameLookup.Diagnostic.OfLookup
import NameLookup.Proofs.Analysis.Deferral
import NameLookup.Proofs.Analysis.InForce
import NameLookup.Proofs.Analysis.Freshness
import NameLookup.Proofs.SymbolTable.Ownership
import NameLookup.Proofs.Analysis.Aliases
import NameLookup.Proofs.SymbolTable.Atomicity
import NameLookup.Proofs.SymbolTable.Instances
import NameLookup.Proofs.Analysis.Parameters
import NameLookup.Proofs.ExportClosure
import NameLookup.Proofs.Analysis.FirstBuilt
import NameLookup.Proofs.Operand.CanonicalForms
import NameLookup.Proofs.SymbolTable.SelfContainment
import NameLookup.Proofs.Analysis.ArgumentSpellings
import NameLookup.Proofs.SymbolTable.InstanceRecords
import NameLookup.Proofs.Analysis.Importable
import NameLookup.Proofs.Session
import NameLookup.Proofs.Analysis.RefusedImports
import NameLookup.Proofs.Lookup.StrictLabels
import NameLookup.Proofs.SymbolTable.Ordering
import NameLookup.Proofs.SymbolTable.Walks
import NameLookup.Proofs.SymbolTable.Rendering
import NameLookup.Proofs.Operand.GenericLookups
import NameLookup.Proofs.SymbolTable.ParameterLevels
import NameLookup.Proofs.ExportListing
import NameLookup.Proofs.Lookup.Stages
import NameLookup.Proofs.Lookup.ImportOrder
import NameLookup.Proofs.SymbolTable.Mirroring
import NameLookup.Proofs.SymbolTable.Heights
import NameLookup.Proofs.TypeExpr.Composition
import NameLookup.Proofs.SymbolTable.MemberTemplates
import NameLookup.Proofs.SymbolTable.LateInstances
import NameLookup.Proofs.SymbolTable.Outlines
import NameLookup.Proofs.Operand.LargerBudgets
import NameLookup.Proofs.Operand.QualifiedNames
import NameLookup.Proofs.Operand.BoundParameters
import NameLookup.Proofs.Operand.AliasRuns
import NameLookup.Proofs.Analysis.SwitchImports
import NameLookup.Proofs.ExportRequests
import NameLookup.Proofs.Analysis.SwitchBody
import NameLookup.Proofs.Lookup.Reporting
import NameLookup.Proofs.LineMap
import NameLookup.Proofs.Analysis.Frames
import NameLookup.Proofs.TypeExpr.Layers
import NameLookup.Proofs.ImportRequests
import NameLookup.Proofs.Interning
