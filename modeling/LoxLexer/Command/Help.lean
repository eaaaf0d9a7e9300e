import LoxLexer.Command.Request
import LoxLexer.Text.Lines

/-!
# Help texts

What the program prints about itself.
-/

set_option autoImplicit false

namespace LoxLexer

/-- The help on a topic. -/
def HelpTopic.text : HelpTopic → String
  | program => unlines
      ["Lox tokenizer",
        "",
        "Usage: lox <COMMAND>",
        "",
        "Commands:",
        "  tokenize  Scan source files and print one token per line",
        "  help      Print this message or the help of the given subcommand(s)",
        "",
        "Options:",
        "  -h, --help     Print help",
        "  -V, --version  Print version"]
  | tokenize => unlines
      ["Scan source files and print one token per line",
        "",
        "Usage: lox tokenize [OPTIONS] <FILE>...",
        "",
        "Arguments:",
        "  <FILE>...  Lox source files to tokenize",
        "",
        "Options:",
        "      --format <FORMAT>  Output format for tokens [default: text] " ++
          "[possible values: text, json]",
        "      --pretty           Render diagnostics with source snippets (text format only)",
        "  -h, --help             Print help"]
  | help => unlines
      ["Print this message or the help of the given subcommand(s)",
        "",
        "Usage: lox help [COMMAND]...",
        "",
        "Arguments:",
        "  [COMMAND]...  Print help for the subcommand(s)"]

/-- The line that tells the version. -/
def versionText : String := unlines ["lox 0.1.0"]

end LoxLexer
