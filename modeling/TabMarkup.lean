import TabMarkup.Page
import TabMarkup.Proofs.Attempt
import TabMarkup.Proofs.Compilation.BlankLine
import TabMarkup.Proofs.Compilation.Concatenation
import TabMarkup.Proofs.Compilation.Delivery
import TabMarkup.Proofs.Compilation.Directives
import TabMarkup.Proofs.Compilation.Embeddings
import TabMarkup.Proofs.Compilation.FinalNewline
import TabMarkup.Proofs.Compilation.FirstError
import TabMarkup.Proofs.Compilation.Indentation
import TabMarkup.Proofs.Compilation.Log
import TabMarkup.Proofs.Compilation.Lossy
import TabMarkup.Proofs.Compilation.Nested
import TabMarkup.Proofs.Compilation.Progress
import TabMarkup.Proofs.Compilation.ReadFailure
import TabMarkup.Proofs.Compilation.Render
import TabMarkup.Proofs.Compilation.Size
import TabMarkup.Proofs.Compilation.WithoutDirective
import TabMarkup.Proofs.Compilation.Wrapped
import TabMarkup.Proofs.Elements
import TabMarkup.Proofs.FileSystem.Access
import TabMarkup.Proofs.FileSystem.AnyPath
import TabMarkup.Proofs.FileSystem.MakeAgain
import TabMarkup.Proofs.FileSystem.Times
import TabMarkup.Proofs.FileSystem.Writing
import TabMarkup.Proofs.Indentation
import TabMarkup.Proofs.Line.CutOff
import TabMarkup.Proofs.Page.Again
import TabMarkup.Proofs.Page.Cache
import TabMarkup.Proofs.Page.Failure
import TabMarkup.Proofs.Page.Keeping
import TabMarkup.Proofs.Page.OwnDocument
import TabMarkup.Proofs.Page.Verdict
import TabMarkup.Proofs.Page.ViewDirectories
import TabMarkup.Proofs.Position
import TabMarkup.Proofs.Render.Append
import TabMarkup.Proofs.Render.Escape
import TabMarkup.Proofs.StepBack
