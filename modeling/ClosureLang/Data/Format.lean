import ClosureLang.Data.Dotenv
import ClosureLang.Data.Hcl.Document
import ClosureLang.Data.Ini
import ClosureLang.Data.Json
import ClosureLang.Data.Properties
import ClosureLang.Data.Toml.Document
import ClosureLang.Data.Yaml.Meaning

/-! The formats of files that describe fields. -/
namespace ClosureLang.Data

inductive Format where
  | yaml
  | json
  | toml
  | hcl
  | ini
  | properties
  | dotenv
deriving DecidableEq, Repr

namespace Format

/-- The format of files with an extension. -/
def ofExtension? : String → Option Format
  | ".yaml" => some yaml
  | ".yml" => some yaml
  | ".json" => some json
  | ".toml" => some toml
  | ".hcl" => some hcl
  | ".tfvars" => some hcl
  | ".ini" => some ini
  | ".properties" => some properties
  | ".props" => some properties
  | ".prop" => some properties
  | ".env" => some dotenv
  | ".dotenv" => some dotenv
  | _ => none

/-- The fields that a text describes; none if it is not well formed. Some formats refer to the
environment. -/
def table? {m : Type → Type} [Monad m] (environment : String → m (Option String)) (text : String) :
    Format → OptionT m Table
  | yaml => .mk (pure (Yaml.table? text))
  | json => .mk (pure (Json.table? text))
  | toml => .mk (pure (Toml.table? text))
  | hcl => .mk (pure (Hcl.table? text))
  | ini => .mk (pure (Ini.table? text))
  | properties => Properties.table? environment text
  | dotenv => Dotenv.table? environment text

end Format

end ClosureLang.Data
