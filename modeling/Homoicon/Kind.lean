/-! The kinds of node. -/
namespace Homoicon

/-- What a node is. Tokens, syntax, patterns and collections share one set of kinds. -/
inductive Kind
  | nil
  | endOfInput
  | nameSymbol
  | operatorSymbol
  | spaceSymbol
  | number
  | string
  | roundBlock
  | squareBlock
  | curlyBlock
  | toplevelBlock
  | stringBlock
  | nativeFunction
  | patternAnchor
  | patternMatchType
  | patternMatchValue
  | patternCapture
  | patternAlternatives
  | patternSequence
  | patternOptional
  | patternRepeat
  | list
  | map
  | keyValuePair
deriving DecidableEq, Repr

namespace Kind

def name : Kind → String
  | nil => "nil"
  | endOfInput => "end"
  | nameSymbol => "name_symbol"
  | operatorSymbol => "operator_symbol"
  | spaceSymbol => "space_symbol"
  | number => "number"
  | string => "string"
  | roundBlock => "round_block"
  | squareBlock => "square_block"
  | curlyBlock => "curly_block"
  | toplevelBlock => "toplevel_block"
  | stringBlock => "string_block"
  | nativeFunction => "native_function"
  | patternAnchor => "pattern_anchor"
  | patternMatchType => "pattern_match_type"
  | patternMatchValue => "pattern_match_value"
  | patternCapture => "pattern_capture"
  | patternAlternatives => "pattern_alternatives"
  | patternSequence => "pattern_sequence"
  | patternOptional => "pattern_optional"
  | patternRepeat => "pattern_repeat"
  | list => "list"
  | map => "map"
  | keyValuePair => "kv_pair"

/-- The name in serialised nodes, which spells out the pair's. -/
def tag : Kind → String
  | keyValuePair => "key_value_pair"
  | kind => kind.name

def all : List Kind :=
  [nil, endOfInput, nameSymbol, operatorSymbol, spaceSymbol, number, string, roundBlock,
    squareBlock, curlyBlock, toplevelBlock, stringBlock, nativeFunction, patternAnchor,
    patternMatchType, patternMatchValue, patternCapture, patternAlternatives, patternSequence,
    patternOptional, patternRepeat, list, map, keyValuePair]

def named? (text : String) : Option Kind := all.find? (·.name == text)

def isBlock : Kind → Bool
  | roundBlock | squareBlock | curlyBlock | toplevelBlock | stringBlock => true
  | _ => false

def isSymbol : Kind → Bool
  | nameSymbol | operatorSymbol | spaceSymbol => true
  | _ => false

def isPattern : Kind → Bool
  | patternAnchor | patternMatchType | patternMatchValue | patternCapture | patternAlternatives
  | patternSequence | patternOptional | patternRepeat => true
  | _ => false

/-- Instructions that consume exactly one node. -/
def isValuePattern : Kind → Bool
  | patternMatchType | patternMatchValue => true
  | _ => false

end Kind
end Homoicon
