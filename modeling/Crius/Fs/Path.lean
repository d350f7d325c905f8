import Crius.Fs.Ramfs

/-!
# Paths

The path helpers of `fs/vfs/vfs.c`. A path is a C string, so a list of bytes without a
zero. The joined path has at most 255 bytes, so the limit of 255 bytes on one component
in `resolve_abs` never cuts anything.
-/
namespace Crius.Fs

open Ramfs (slash dot components)

/-- The directory that relative paths start from: `"/"` without a task or with an empty `cwd`. -/
def workingDir : Option (List UInt8) → List UInt8
  | none | some [] => [slash]
  | some (c :: cs) => c :: cs

/-- `tmp[]` of `resolve_abs` -/
def joinCwd (cwd : Option (List UInt8)) (path : List UInt8) : List UInt8 :=
  if path.head? = some slash then path.take 255
  else if workingDir cwd = [slash] then slash :: path.take 254
  else ((workingDir cwd).take 254 ++ slash :: path).take 255

/-- The effect of a `".."` on `out[]`, whose first byte is always a slash. -/
def popName (out : List UInt8) : List UInt8 :=
  slash :: (out.tail.reverse.dropWhile (· ≠ slash)).reverse.dropLast

/-- One round of the loop of `resolve_abs`, into a buffer of `size` bytes. -/
def pushName (size : Nat) (out comp : List UInt8) : List UInt8 :=
  if comp = [dot] then out
  else if comp = [dot, dot] then popName out
  else
    let out :=
      if 1 < out.length ∧ out.getLast? ≠ some slash ∧ out.length < size - 1 then out ++ [slash]
      else out
    out ++ comp.take (size - 1 - out.length)

/-- `resolve_abs` -/
def resolveAbs (size : Nat) (cwd : Option (List UInt8)) (path : List UInt8) : List UInt8 :=
  (components (joinCwd cwd path)).foldl (pushName size) [slash]

/-- `path_starts_with`, for a mount point -/
def pathStartsWith (path point : List UInt8) : Bool :=
  point == [slash] ||
    (point.isPrefixOf path &&
      match path.drop point.length with
      | [] => true
      | c :: _ => c == slash)

/-- `strip_mount` -/
def stripMount (path point : List UInt8) : List UInt8 :=
  match path.drop point.length with
  | [] => [slash]
  | c :: rest => if c = slash then c :: rest else path.drop (point.length - 1)

end Crius.Fs
