import TriShare.Command.Run
/-!
What the program says about the outcome of a run.
-/

namespace TriShare

/-- The causes of a failure, numbered if there are several. -/
def causeLines : List String → List String
  | [] => []
  | [cause] => ["", "Caused by:", "    " ++ cause]
  | causes => "" :: "Caused by:" :: causes.mapIdx fun i cause => s!"    {i}: {cause}"

/-- A failure with its causes. -/
def Failure.report (e : Failure) : String :=
  match e.lines with
  | [] => ""
  | message :: causes => "\n".intercalate (("Error: " ++ message) :: causeLines causes)

/-- How the program is used. -/
def usage : String :=
  "\n".intercalate
    ["Usage: shareprep [-c <CONFIG>] <COMMAND>", "", "Commands:",
      "  share -i <INPUT> -o <OUT_DIR> [-w <WORKERS>]",
      "  profile -o <OUTPUT> <TABLES>...",
      "  pad --widths <WIDTHS> -i <INPUT> -o <OUTPUT>"]

end TriShare
