import Bytecode.Text
/-!
# Paths

Paths are sequences of segments between slashes. Joining drops empty segments and `.`, lets `..`
take back the segment before it, and gives `.` when nothing is left.
-/
namespace Bytecode.Path

/-- Adds a segment to those before it, the last one first. Above the root of an absolute path there
is nothing; a relative path may climb. -/
def follow (absolute : Bool) (done : List Text) (segment : Text) : List Text :=
  if segment.isEmpty || segment = "." then done
  else if segment = ".." then
    match done with
    | [] => if absolute then [] else [segment]
    | last :: before => if last = ".." then segment :: done else before
  else segment :: done

/-- A path in its shortest form. A slash at its end stays. -/
def normalize (path : Text) : Text :=
  let slash : Text := "/"
  let absolute := slash.isPrefixOf path
  let trailing := slash.isPrefixOf path.reverse
  let segments := ((Text.split '/' path).foldl (follow absolute) []).reverse
  let body := Text.join slash segments
  let lead := if absolute then slash else []
  if body.isEmpty then
    if absolute then slash else if trailing then "./" else "."
  else lead ++ body ++ (if trailing then slash else [])

/-- The path of parts one below the other; empty parts do not count. -/
def join (parts : List Text) : Text :=
  let joined := Text.join "/" (parts.filter (!·.isEmpty))
  if joined.isEmpty then "." else normalize joined

end Bytecode.Path
