/-!
# Lines

* `lines`: the lines of a text; a line ends at `\n` or `\r\n`, and what follows the last end is
  a line only if it is not empty
* `unlines`: lines joined by line ends
* `breakAt`: the parts before and after the first of some character
-/

namespace Runbook.Text

/-- The lines of a text, without their ends. -/
def lines : List Char → List (List Char)
  | [] => []
  | '\n' :: rest => [] :: lines rest
  | '\r' :: '\n' :: rest => [] :: lines rest
  | c :: rest =>
    match lines rest with
    | [] => [[c]]
    | line :: more => (c :: line) :: more

/-- The lines joined by line ends. -/
def unlines (ls : List (List Char)) : List Char := List.intercalate ['\n'] ls

/-- The parts before and after the first occurrence of a character. -/
def breakAt (c : Char) (cs : List Char) : Option (List Char × List Char) :=
  match cs.dropWhile (· ≠ c) with
  | _ :: after => some (cs.takeWhile (· ≠ c), after)
  | [] => none

/-- The parts before and after the first `+=`. -/
def breakAtPlusEq : List Char → Option (List Char × List Char)
  | '+' :: '=' :: after => some ([], after)
  | c :: rest => (breakAtPlusEq rest).map fun (before, after) => (c :: before, after)
  | [] => none

end Runbook.Text
