/-!
# The description of the command
-/

namespace ArrayLoops.CommandLine

def commandName : String := "loopdown"

def versionText : String := commandName ++ " 0.1.0\n"

def helpText : String :=
  "\n".intercalate [
    "Lower array higher-order function calls into index loops",
    "",
    "Usage: loopdown [OPTIONS] [PATHS]...",
    "",
    "Arguments:",
    "  [PATHS]...  Files or directories to lower. Directories are searched for `.js` files",
    "",
    "Options:",
    "  -o, --out-dir <OUT_DIR>    Write lowered files here, mirroring the input layout, instead of stdout",
    "  -c, --config <CONFIG>      Lowering options file. Defaults to `loopdown.json` in the current directory",
    "      --only <ONLY>          Only lower these operations (comma-separated, e.g. `map,filter`)",
    "      --this-arg <THIS_ARG>  What to do with calls that pass a `thisArg`",
    "      --exclude <GLOB>       Skip paths matching this glob. May be repeated",
    "      --report               Print a JSON summary of rewritten call sites instead of the lowered code",
    "      --no-color             Disable colored diagnostics",
    "  -h, --help                 Print help",
    "  -V, --version              Print version",
    ""]

end ArrayLoops.CommandLine
