/-!
# How the program is used

The texts that tell a user the version and the options.
-/

namespace Carving.Console

def program : String := "blobcarve"

def version : String := "0.1.0"

def usage : List String := [
  "Locate and carve embedded compressed streams and filesystem images out of binary blobs",
  "",
  "Usage: blobcarve [OPTIONS] <--file <FILE>|--directory <DIRECTORY>>",
  "",
  "Options:",
  "  -f, --file <FILE>              Path to a single blob to scan",
  "  -d, --directory <DIRECTORY>    Path to a directory of blobs to scan",
  "  -o, --output <OUTPUT>          Output directory for carved chunks [default: .]",
  "  -v, --verbose...               Verbosity level (-v, -vv, -vvv)",
  "      --format <FORMAT>          Only look for these formats (repeatable; default: all)",
  "      --max-chunks <MAX_CHUNKS>  Maximum number of chunks to report per file (0 = unlimited)",
  "                                 [default: 0]",
  "      --carve                    Write every chunk to the output directory",
  "      --commands                 Print the extraction command for every carved chunk",
  "      --dry-run                  Dry run - don't write files, just show what would be carved",
  "      --force                    Overwrite existing files without prompting",
  "  -h, --help                     Print help",
  "  -V, --version                  Print version"]

end Carving.Console
