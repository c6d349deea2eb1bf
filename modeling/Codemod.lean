import Codemod.Config.Load
import Codemod.Engine
import Codemod.Proofs.Engine.Passes
import Codemod.Proofs.Recipes.MethodName
import Codemod.Proofs.Recipes.Deletion
import Codemod.Proofs.Recipes.FoldedDeletion
import Codemod.Proofs.Recipes.Reparsing
import Codemod.Proofs.Recipes.Settling
import Codemod.Proofs.Recipes.MethodMentions
import Codemod.Proofs.Recipes.Semicolons
import Codemod.Proofs.Java.Units
import Codemod.Proofs.Yaml.Chains
import Codemod.Proofs.Yaml.RoundTrip
import Codemod.Recipes.Deletion
import Codemod.Recipes.Folding
import Codemod.Recipes.MethodName
import Codemod.Recipes.Semicolons
import Codemod.Source.FileTree
import Codemod.Proofs.Recipes.MethodAttribution
import Codemod.Proofs.Recipes.MethodSets
import Codemod.Proofs.Java.Literals
import Codemod.Proofs.Java.RelabelledGrammar
import Codemod.Proofs.Recipe.Preorder
import Codemod.Proofs.Source.Attribution
import Codemod.Proofs.Source.Reordering
import Codemod.Proofs.Engine.Separation
import Codemod.Proofs.Java.Scanning
import Codemod.Proofs.Java.Respacing
import Codemod.Proofs.Recipes.LostImports
import Codemod.Proofs.Recipes.MethodWords
import Codemod.Proofs.Recipes.RenamedText
import Codemod.Proofs.Java.Clauses
import Codemod.Proofs.Java.RenamedTokens
import Codemod.Proofs.Java.RenamedUnits
import Codemod.Proofs.Recipes.ClearedSemicolons
import Codemod.Proofs.Recipes.MethodFrame
import Codemod.Proofs.Yaml.KeyLines
import Codemod.Proofs.Recipes.KeptLines
import Codemod.Proofs.Java.Sifted.Texts
import Codemod.Proofs.Recipe.Identifiers
import Codemod.Proofs.Recipes.KeptHeader
import Codemod.Proofs.Recipes.KeptReturns
import Codemod.Proofs.Recipes.FoldedReparsing
import Codemod.Proofs.Java.Overloads
import Codemod.Proofs.Java.AttributedDeclarations
import Codemod.Proofs.Java.StaticCalls
import Codemod.Proofs.Java.InferredTypes
import Codemod.Proofs.Java.LocalScopes
import Codemod.Proofs.Java.Lineages
import Codemod.Proofs.Pattern.TypeArguments
import Codemod.Proofs.Pattern.DisplayedMethods
import Codemod.Proofs.Yaml.CopiedKeys
import Codemod.Proofs.Yaml.ClosedQuotes
import Codemod.Proofs.Yaml.QuotedTexts
import Codemod.Proofs.Yaml.PropertyRows
import Codemod.Proofs.Yaml.Columns
import Codemod.Proofs.Java.Splitting
import Codemod.Proofs.Java.GrammarDescent
import Codemod.Proofs.Recipes.TidyLists
import Codemod.Yaml.Indexed
import Codemod.Java.Token.Indexed
import Codemod.Proofs.Source.Boundaries
