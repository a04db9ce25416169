namespace ChipEight.CommandLine

/-!
# Help

The texts that explain the command line.
-/

def ofLines (lines : List String) : String := String.join (lines.map fun l => l ++ "\n")

def versionText : String := ofLines ["chip8 0.1.0"]

def summaryText : String := ofLines [
  "Runs a CHIP-8 program in an SDL2 window",
  "",
  "Usage: chip8 [OPTIONS] <ROM>",
  "",
  "Arguments:",
  "  <ROM>  Path to the program image",
  "",
  "Options:",
  "  -c, --clock <CLOCK>  Instructions executed per second [default: 500]",
  "  -s, --scale <SCALE>  Size of each CHIP-8 pixel on screen [default: 10]",
  "      --seed <SEED>    Seed for the random number instruction",
  "  -h, --help           Print help (see more with '--help')",
  "  -V, --version        Print version"]

def helpText : String := ofLines [
  "Runs a CHIP-8 program in an SDL2 window.",
  "",
  "Keys 1-4, Q-R, A-F and Z-V stand in for the hexadecimal keypad; Escape quits.",
  "",
  "Usage: chip8 [OPTIONS] <ROM>",
  "",
  "Arguments:",
  "  <ROM>",
  "          Path to the program image",
  "",
  "Options:",
  "  -c, --clock <CLOCK>",
  "          Instructions executed per second",
  "          ",
  "          [default: 500]",
  "",
  "  -s, --scale <SCALE>",
  "          Size of each CHIP-8 pixel on screen",
  "          ",
  "          [default: 10]",
  "",
  "      --seed <SEED>",
  "          Seed for the random number instruction",
  "",
  "  -h, --help",
  "          Print help (see a summary with '-h')",
  "",
  "  -V, --version",
  "          Print version"]

end ChipEight.CommandLine
