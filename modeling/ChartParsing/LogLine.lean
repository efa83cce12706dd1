/-!
# Log lines

Building a grammar and filling a chart leave a line in the log. A line has a
level and a text; whoever runs the library decides where lines go.
-/

namespace ChartParsing

/-- How much detail a line gives. -/
inductive LogLevel where
  | debug
  | trace
  deriving DecidableEq

/-- A level as written. -/
def LogLevel.text : LogLevel → String
  | .debug => "DEBUG"
  | .trace => "TRACE"

/-- A line of the log. -/
structure LogLine where
  level : LogLevel
  text : String
  deriving DecidableEq

/-- A line as written: the level, then the text. -/
def LogLine.render (line : LogLine) : String := line.level.text ++ " " ++ line.text

end ChartParsing
