import CommandLanguage.Arrangement
import CommandLanguage.Capabilities
import CommandLanguage.Data.Config
import CommandLanguage.Data.Datum
import CommandLanguage.Data.Json
import CommandLanguage.Data.Toml.Lexeme
import CommandLanguage.Data.Toml.Reader
import CommandLanguage.Data.Toml.Scalar
import CommandLanguage.Data.Toml.Table
import CommandLanguage.Declaration
import CommandLanguage.DefaultConfig
import CommandLanguage.Directory
import CommandLanguage.Error
import CommandLanguage.FlagTable
import CommandLanguage.Line
import CommandLanguage.Main
import CommandLanguage.Parameter
import CommandLanguage.Priority
import CommandLanguage.Program.LogFile
import CommandLanguage.Program.Request
import CommandLanguage.Program.Session
import CommandLanguage.Proofs.Acceptance
import CommandLanguage.Proofs.Answer
import CommandLanguage.Proofs.AsciiLetters
import CommandLanguage.Proofs.Astray
import CommandLanguage.Proofs.CacheRuns
import CommandLanguage.Proofs.CompletionCache
import CommandLanguage.Proofs.CompletionWalk
import CommandLanguage.Proofs.DeclaredPermissions
import CommandLanguage.Proofs.DeclaredUsages
import CommandLanguage.Proofs.DerivedPermissions
import CommandLanguage.Proofs.FirstWord
import CommandLanguage.Proofs.FlagAccount
import CommandLanguage.Proofs.FlagMeaning
import CommandLanguage.Proofs.FlagNames
import CommandLanguage.Proofs.FlagOrder
import CommandLanguage.Proofs.FlagRegistration
import CommandLanguage.Proofs.FlagRun
import CommandLanguage.Proofs.FlagSearch
import CommandLanguage.Proofs.Gates
import CommandLanguage.Proofs.Grants
import CommandLanguage.Proofs.Growth
import CommandLanguage.Proofs.GrowthLaw
import CommandLanguage.Proofs.InPlace
import CommandLanguage.Proofs.InsertionOrder
import CommandLanguage.Proofs.Laying
import CommandLanguage.Proofs.LetterCase
import CommandLanguage.Proofs.Linked
import CommandLanguage.Proofs.Mirror
import CommandLanguage.Proofs.NameCompletion
import CommandLanguage.Proofs.NameIndex
import CommandLanguage.Proofs.NatureOrder
import CommandLanguage.Proofs.NearestUsage
import CommandLanguage.Proofs.Numbering
import CommandLanguage.Proofs.OptionalSiblings
import CommandLanguage.Proofs.Orders
import CommandLanguage.Proofs.OrdersOnce
import CommandLanguage.Proofs.Outline
import CommandLanguage.Proofs.Overlays
import CommandLanguage.Proofs.Path
import CommandLanguage.Proofs.Place
import CommandLanguage.Proofs.Reach
import CommandLanguage.Proofs.Reachable
import CommandLanguage.Proofs.Redefinitions
import CommandLanguage.Proofs.Reordering
import CommandLanguage.Proofs.RequiredParameters
import CommandLanguage.Proofs.Resolution
import CommandLanguage.Proofs.Rollback
import CommandLanguage.Proofs.Secrecy
import CommandLanguage.Proofs.Seek
import CommandLanguage.Proofs.Selection
import CommandLanguage.Proofs.SelectionsOnce
import CommandLanguage.Proofs.Spelling
import CommandLanguage.Proofs.Suggested
import CommandLanguage.Proofs.Trail
import CommandLanguage.Proofs.Trie
import CommandLanguage.Proofs.TypedFlag
import CommandLanguage.Proofs.Undecidable
import CommandLanguage.Proofs.UnknownCommand
import CommandLanguage.Proofs.UnknownFlag
import CommandLanguage.Proofs.ValueSets
import CommandLanguage.Proofs.View
import CommandLanguage.Proofs.Walk
import CommandLanguage.Proofs.Widening
import CommandLanguage.Proofs.WildcardGrants
import CommandLanguage.Registry
import CommandLanguage.Settings
import CommandLanguage.Text.Alphabetic
import CommandLanguage.Text.AsciiCase
import CommandLanguage.Text.Cased
import CommandLanguage.Text.CharRange
import CommandLanguage.Text.Lowercase
import CommandLanguage.Text.Numeral
import CommandLanguage.Text.Numeric
import CommandLanguage.Text.Offset
import CommandLanguage.Text.ShellWords
import CommandLanguage.Text.WhiteSpace
import CommandLanguage.Tree.Ambiguity
import CommandLanguage.Tree.Builder
import CommandLanguage.Tree.CommandTree
import CommandLanguage.Tree.Completion
import CommandLanguage.Tree.Expansion
import CommandLanguage.Tree.Grammar
import CommandLanguage.Tree.Node
import CommandLanguage.Tree.Permission
import CommandLanguage.Tree.Search
import CommandLanguage.TtlCache
import CommandLanguage.Usage
import CommandLanguage.ValueType
