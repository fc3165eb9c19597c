import ServerSplit.Command.Usage

/-! What is said where no command is run. -/
namespace ServerSplit.Command

def versionText : String := "serverfn 0.1.0\n"

def helpText : String :=
  "Split \"use server\" functions out of client build output.\n" ++
  "\n" ++
  "Usage: serverfn [-v] transform <PATH> [-c FILE] [-f pretty|json] [--sdk-out FILE] [--dry-run]\n" ++
  "                                      [--deny-warnings]\n" ++
  "       serverfn [-v] init [-o FILE] [-t TEMPLATE] [-l]\n" ++
  "       serverfn --help | --version\n"

def Usage.message : Usage → String
  | .help => helpText
  | .version => versionText
  | .nothingAsked => helpText
  | .noCommand => "error: a command is required\n"
  | .unknownCommand => "error: unrecognized command\n"
  | .unknownWord => "error: unexpected argument\n"
  | .badValue => "error: a value is required, and this one is not valid\n"
  | .needlessValue => "error: unexpected value\n"
  | .repeated => "error: an argument cannot be used multiple times\n"
  | .valueMissing => "error: a required argument was not provided: <PATH>\n"

end ServerSplit.Command
