import TabMarkup.Compilation.File
import TabMarkup.FileSystem.Directories
import TabMarkup.Page.Config
import TabMarkup.Page.Error
import TabMarkup.Page.ViewName
import TabMarkup.Render
import TabMarkup.Text.Utf8

/-!
# Pages

A page shows views, which are files in one directory. The composed document of a view is kept in
another directory, and its time is set to that of the view; while the two times agree, the view
is not compiled again.
-/

namespace TabMarkup

/-- A page: its own view, its directories, and what its documents can ask for. -/
structure Page where
  viewName : String
  bindings : Bindings := {}
  statics : Statics := {}
  config : PageConfig := {}

/-- What a page did: its answer, the files afterwards, and the calls and events on the way. -/
structure Visit (α : Type) where
  result : Except PageError α
  files : FileSystem
  calls : List Call := []
  events : List Event := []

namespace Page

/-- The page with its views in another directory. -/
def setViewDir (page : Page) (path : String) : Page :=
  { page with config.viewDir := path }

/-- The page with its composed documents in another directory. -/
def setCacheDir (page : Page) (path : String) : Page :=
  { page with config.cacheDir := path }

/-- The page with a name bound anew. -/
def bind (page : Page) (name : String) (binding : Binding) : Page :=
  { page with bindings := page.bindings.insert name binding }

/-- The path of a file in a directory. -/
def join (directory name : String) : String :=
  if directory = "" ∨ directory.toList.getLast? = some '/' then directory ++ name
  else directory ++ "/" ++ name

/-- The path of the view with a file name. -/
def viewPath (page : Page) (clean : String) : String :=
  join page.config.viewDir clean

/-- The path at which the composed document of a view is kept. -/
def cachePath (page : Page) (clean : String) : String :=
  join page.config.cacheDir (clean ++ ".html")

/-- Whether a path has an entry of the same time. An unknown time is never the same. -/
def isCurrent (files : FileSystem) (path : String) (view : FileSystem.Entry) : Bool :=
  match files.stat path with
  | .error _ => false
  | .ok cached => view.time?.isSome && cached.time? == view.time?

/-- Keeps a composed document, at the time of its view. -/
def keep (page : Page) (files : FileSystem) (clean document : String) (time : Time) :
    Except PageError String × FileSystem :=
  match files.makeDirectories (FileSystem.names page.config.cacheDir) with
  | (.error error, files) => (.error (.file page.config.cacheDir error), files)
  | (.ok (), files) =>
    let path := page.cachePath clean
    match files.write path (Utf8.encode document.toList) time with
    | .error error => (.error (.file path error), files)
    | .ok files => (.ok path, files)

/-- Compiles a view that is there, whatever is kept of it. -/
def recompile (page : Page) (files : FileSystem) (clean : String) (view : FileSystem.Entry) :
    Visit String :=
  let path := page.viewPath clean
  let c := compileEntry path view
  let events := .compilingView clean (page.cachePath clean) :: c.events
  match view with
  | .directory .. => { result := .error (.compile path (refusal .isDirectory)), files, events }
  | .file _ time =>
    match c.result with
    | .error error => { result := .error (.compile path error), files, events }
    | .ok fragments =>
      let (result, files) := page.keep files clean fragments.compose time
      { result, files, events }

/-- Makes sure that the kept document of a view is current, and answers with its path. -/
def compile (page : Page) (files : FileSystem) (name : String) : Visit String :=
  match ViewName.sanitize? name with
  | none => { result := .error (.invalidViewName name), files }
  | some clean =>
    match files.stat (page.viewPath clean) with
    | .error error => { result := .error (.file (page.viewPath clean) error), files }
    | .ok view =>
      let path := page.cachePath clean
      if isCurrent files path view then { result := .ok path, files, events := [.cacheHit clean] }
      else page.recompile files clean view

/-- The text of a kept document. -/
def readDocument (files : FileSystem) (path : String) : Except PageError String :=
  match files.readBytes path with
  | .error error => .error (.file path error)
  | .ok bytes =>
    match Utf8.decode? bytes with
    | none => .error (.file path .notText)
    | some text => .ok (String.ofList text)

/-- Compiles a view if needed, and renders it with what the page binds. -/
def view (page : Page) (files : FileSystem) (name : String) : Visit String :=
  let v := page.compile files name
  match v.result with
  | .error error => { v with result := .error error }
  | .ok path =>
    match readDocument v.files path with
    | .error error => { v with result := .error error }
    | .ok document =>
      let r := render document page.bindings page.statics
      { v with
        result := r.text.mapError .render
        calls := r.calls
        events := v.events ++ r.events }

/-- Renders the view that the page is for. -/
def output (page : Page) (files : FileSystem) : Visit String :=
  page.view files page.viewName

end Page

end TabMarkup
