/-!
# The standard module `seq`

Helpers over lists and strings, written in the language itself.
-/

namespace Shiba.Library

/-- The lines of the module `seq`. -/
def seqLines : List String :=
  ["# seq: helpers over lists and strings",
   "",
   "def contains(xs, x) \x7b",
   "    for i, e in xs \x7b",
   "        if e == x \x7b",
   "            return true",
   "        \x7d",
   "    \x7d",
   "    return false",
   "\x7d",
   "",
   "def index_of(xs, x) \x7b",
   "    for i, e in xs \x7b",
   "        if e == x \x7b",
   "            return i",
   "        \x7d",
   "    \x7d",
   "    return -1",
   "\x7d",
   "",
   "def reverse(xs) \x7b",
   "    out = []",
   "    n = len(xs)",
   "    for n > 0 \x7b",
   "        n -= 1",
   "        out += [xs[n]]",
   "    \x7d",
   "    return out",
   "\x7d",
   "",
   "def sum(xs) \x7b",
   "    total = 0",
   "    for i, e in xs \x7b",
   "        total += e",
   "    \x7d",
   "    return total",
   "\x7d",
   "",
   "def join(xs, sep) \x7b",
   "    out = \"\"",
   "    for i, e in xs \x7b",
   "        if i > 0 \x7b",
   "            out += sep",
   "        \x7d",
   "        out += str(e)",
   "    \x7d",
   "    return out",
   "\x7d"]

/-- The text of the module `seq`. -/
def seq : String := String.join (seqLines.map (· ++ "\n"))

/-- The standard modules: file names and texts. -/
def files : List (String × String) := [("seq.sb", seq)]

end Shiba.Library
