import RotoCompiler.Parser.Identifiers
import RotoCompiler.TypeChecker.Types

/-!
# Files and modules (file_tree.rs, module.rs)

The files of a script and the tree of modules that is made of them. The name of a module is
the name of its file or of its directory, or what is given for it; nothing checks that it is
an identifier. Of the declarations in a module only the identifiers are kept.
-/

namespace Roto.Ast
open Lib

/-- An identifier that the parser took from a token. -/
structure ItemIdent (u : Parser.Unicode) extends Meta Identifier where
  lexed : Parser.IsLexed u node.toList

inductive Declaration (u : Parser.Unicode) where
  | filterMap (ident : ItemIdent u)
  | record (ident : ItemIdent u)
  | enum (ident : ItemIdent u) (variants : List (ItemIdent u))
  | function (ident : ItemIdent u)
  | test (ident : ItemIdent u)
  | import
  | const (ident : ItemIdent u)

end Roto.Ast

namespace Roto
open Lib

/-! ### Files -/

structure SourceFile where
  moduleName : Identifier
  contents : Text
  children : List ℕ

/-- `Path::file_stem`: the part of a file name before its last dot, unless that is the first
character. -/
def fileStem (name : Text) : Text :=
  match name.reverse.dropWhile fun c => c ≠ '.' with
  | [] => name
  | [_] => name
  | _ :: stem => stem.reverse

/-- The name of a module in `read_internal`, where the path is given by its components. -/
def moduleNameOf (path : List Text) : Option Identifier :=
  match path.reverse with
  | [] => none
  | fileName :: parents =>
    if fileName = "mod.roto".toList then parents.head?.map String.ofList
    else some (String.ofList (fileStem fileName))

inductive FileSpec where
  | file (file : SourceFile)
  | directory (file : SourceFile) (specs : List FileSpec)

/-- A new file at the end, which is a child of `parent`. -/
def pushFile (parent : ℕ) (files : List SourceFile) (file : SourceFile) : List SourceFile :=
  (files ++ [file]).modify parent fun f => { f with children := f.children ++ [files.length] }

mutual

/-- `inner` of `file_spec`. -/
def FileSpec.inner (parent : ℕ) (files : List SourceFile) : FileSpec → List SourceFile
  | .file f => pushFile parent files f
  | .directory f specs => innerAll files.length (pushFile parent files f) specs

def FileSpec.innerAll (parent : ℕ) (files : List SourceFile) : List FileSpec → List SourceFile
  | [] => files
  | spec :: specs => innerAll parent (inner parent files spec) specs

end

/-- `FileTree::file_spec`. -/
def FileSpec.files : FileSpec → List SourceFile
  | .file f => [f]
  | .directory f specs => innerAll 0 [f] specs

/-! ### Modules -/

structure Module (u : Parser.Unicode) where
  ident : Meta Identifier
  ast : List (Ast.Declaration u)
  parent : Option ℕ

structure ModuleTree (u : Parser.Unicode) where
  modules : List (Module u)

section
variable {u : Parser.Unicode} {ε : Type}

/-- The loop that wires up the modules; `none` is an index out of bounds. -/
def wireChildren (parent : ℕ) (modules : List (Module u)) (children : List ℕ) :
    Option (List (Module u)) :=
  children.foldlM (fun modules child =>
    if child < modules.length then some (modules.modify child fun m => { m with parent := parent })
    else none) modules

def wireModules (files : List SourceFile) (modules : List (Module u)) :
    Option (List (Module u)) :=
  files.zipIdx.foldlM (fun modules file => wireChildren file.2 modules file.1.children) modules

/-- `from_files`, with the parser as a parameter and the ids that the modules get. -/
def ModuleTree.fromFiles (parse : ℕ → Text → Except ε (List (Ast.Declaration u)))
    (spanOf : ℕ → MetaId) (files : List SourceFile) : Option (Except (List ε) (ModuleTree u)) :=
  let parsed := files.zipIdx.map fun file => (file, parse file.2 file.1.contents)
  let errors := parsed.filterMap fun p =>
    match p.2 with
    | .error e => some e
    | .ok _ => none
  let modules := parsed.filterMap fun p =>
    match p.2 with
    | .error _ => none
    | .ok ast => some ⟨⟨p.1.1.moduleName, spanOf p.1.2⟩, ast, none⟩
  if errors ≠ [] then some (.error errors)
  else (wireModules files modules).map fun modules => .ok ⟨modules⟩

end

end Roto
