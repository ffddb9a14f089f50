import Zenus.Fs.Pkg
import Zenus.Fs.Tmpfs

/-! # Where packages reach

An entry of a package cannot hold `..`, so it is installed below the install directory
unless it has no name at all.  The lines of a manifest are compared with the install
directory as text, and a `..` behind it leads out again when the line is resolved.
-/

namespace Zenus.Fs

open Lib.Word (eq_of_checkedAdd)
open List

def USR_LOCAL : List Str := [str "usr", str "local"]

/-- The components of the directory of all packages. -/
def VAR_DB_ZPK : List Str := [str "var", str "db", str "zpk"]

/-- Strictly below the install directory, with `.`, `..` and repeated slashes resolved. -/
def BelowInstallDir (path : Str) : Prop :=
  USR_LOCAL <+: normalComps path ∧ normalComps path ≠ USR_LOCAL

/-- Below the install directory, or the package's own directory or manifest. -/
def Confined (name path : Str) : Prop :=
  BelowInstallDir path ∨ normalComps path = VAR_DB_ZPK ++ [name] ∨
    normalComps path = VAR_DB_ZPK ++ [name, str "manifest"]

instance (path : Str) : Decidable (BelowInstallDir path) :=
  inferInstanceAs (Decidable (_ ∧ _))

instance (name path : Str) : Decidable (Confined name path) :=
  inferInstanceAs (Decidable (_ ∨ _ ∨ _))

section Paths

variable {path dir sub name c entry line parent : Str}

end Paths

/-! ## Images -/

namespace Packages

variable {F : Type} {σ : F → Type} [DecidableEq F] (ops : (f : F) → FileSystem (σ f))
variable {s : Packages F σ} {path name : Str} {data : List UInt8}

/-- The entries that the loop of `pkg_install` gets to. -/
def begun (data : List UInt8) (s : Packages F σ) : List PlannedEntry → List PlannedEntry
  | [] => []
  | entry :: rest =>
    let ready := s.prepare ops entry
    if !ready.1 then []
    else
      let result := ready.2.place ops data entry
      entry :: if !result.1 then [] else begun data result.2 rest

section

variable (s)

section

variable (data)

end

end

/-! ## Confinement -/

def oneFile (name path : Str) : List UInt8 :=
  (str "ZPK1" ++ name).rightpad 84 0 ++ ([1, 0, 0, 0, 1] : List UInt8).rightpad 416 0 ++
    (path.rightpad 128 0 ++ [1]).rightpad 500 0 ++ [35]

end Packages

end Zenus.Fs
