import Formula.Text.Blank

/-! # File paths

A path is brought to a normal form that names the same file: without empty components and without
components that are a single period. Exactly two slashes at the front are kept, since they may mean
another root; any other number of them is one.
-/

namespace Formula.FilePath

def components (path : Text) : List Text :=
  (path.splitOn '/').filter fun c => c ≠ [] ∧ c ≠ ['.']

def root (path : Text) : Text :=
  match path.takeWhile (· = '/') with
  | [] => []
  | ['/', '/'] => ['/', '/']
  | _ => ['/']

def normal (path : Text) : Text :=
  match root path ++ List.intercalate ['/'] (components path) with
  | [] => ['.']
  | p => p

end Formula.FilePath
