import Ry.Workspace.TagWalker

/-! # What R writes

R's XDR serialization of a workspace, as its serializer writes it: each object after a header word
with its type, its attribute and tag bits, symbols and environments once and then by their place in
the reference table.  `Writes levels` nests at most that many objects.
-/

namespace Ry

namespace Xdr

/-- The print name of a symbol, or nothing for another reference object, in encounter order. -/
abbrev Table := List (Option SymbolName)

/-- A header word: the type in the low byte, the attribute and tag bits above the object bit. -/
structure Header (typ : Nat) (attr tag : Bool) (word : Nat) : Prop where
  lt : word < 2 ^ 32
  typ : word % 256 = typ
  attr : TagWalk.hasAttr word = attr
  tag : TagWalk.hasTag word = tag

/-- A vector's length: one signed word, or `-1` and a 64-bit count. -/
def lengthBytes (count : Nat) : List UInt8 :=
  if count < 2 ^ 31 then be32 count
  else be32 (2 ^ 32 - 1) ++ be32 (count / 2 ^ 32) ++ be32 (count % 2 ^ 32)

/-- A CHARSXP; `none` is `NA_STRING`. -/
inductive Charsxp : Option (List UInt8) → List UInt8 → Prop
  | text (word : Nat) (bytes : List UInt8) (hword : Header 9 false false word)
      (hlength : bytes.length < 2 ^ 31) :
      Charsxp (some bytes) (be32 word ++ be32 bytes.length ++ bytes)
  | na (word : Nat) (hword : Header 9 false false word) :
      Charsxp none (be32 word ++ be32 (2 ^ 32 - 1))

inductive Strings : Nat → List UInt8 → Prop
  | nil : Strings 0 []
  | cons {count : Nat} {content : Option (List UInt8)} {text rest : List UInt8}
      (htext : Charsxp content text) (hrest : Strings count rest) :
      Strings (count + 1) (text ++ rest)

/-- The objects written as one word: R's own environments, the missing argument, the unbound value
and `NULL`. -/
def singletons : List Nat := [241, 242, 250, 251, 252, 253, 254]

/-- Pairlists, calls, promises and dots. -/
def pairTypes : List Nat := [2, 5, 6, 17]

/-- Environments with a name of their own: persistent, package and namespace. -/
def namedTypes : List Nat := [247, 248, 249]

/-- Vectors of fixed-size elements: the type and the size. -/
def fixedVectors : List (Nat × Nat) := [(10, 4), (13, 4), (14, 8), (15, 16), (24, 1)]

/-- What a stretch of the stream holds. -/
inductive Part
  /-- A symbol, or a reference to one. -/
  | symbol (name : SymbolName)
  | item
  | items (count : Nat)
  | optional (present : Bool)
  /-- An object after its header word, but for its attributes. -/
  | payload (typ : Nat)
  | bytecode
  | constants (count : Nat)
  | constant
  /-- A language or pairlist node inside bytecode. -/
  | node
  /-- A node, or another object as a leaf. -/
  | language

/-- What R writes at a point where the reference table holds `table`, and the table after it. -/
inductive Writes : Nat → Table → Part → List UInt8 → Table → Prop
  | newSymbol {levels : Nat} {table : Table} {name : SymbolName} {text : List UInt8}
      (htext : Charsxp (some (utf8 name)) text) :
      Writes (levels + 1) table (.symbol name) (be32 1 ++ text) (table ++ [some name])
  | packedSymbol {levels : Nat} {table : Table} {name : SymbolName} {index : Nat}
      (hindex : index + 1 < 2 ^ 24) (hname : table[index]? = some (some name)) :
      Writes (levels + 1) table (.symbol name) (be32 ((index + 1) * 256 + 255)) table
  | farSymbol {levels : Nat} {table : Table} {name : SymbolName} {index : Nat}
      (hindex : index + 1 < 2 ^ 32) (hname : table[index]? = some (some name)) :
      Writes (levels + 1) table (.symbol name) (be32 255 ++ be32 (index + 1)) table
  | symbol {levels : Nat} {table table' : Table} {name : SymbolName} {bytes : List UInt8}
      (h : Writes levels table (.symbol name) bytes table') : Writes levels table .item bytes table'
  | packedReference {levels : Nat} {table : Table} {index : Nat}
      (hindex : index + 1 < 2 ^ 24) (hentry : table[index]? = some none) :
      Writes (levels + 1) table .item (be32 ((index + 1) * 256 + 255)) table
  | farReference {levels : Nat} {table : Table} {index : Nat}
      (hindex : index + 1 < 2 ^ 32) (hentry : table[index]? = some none) :
      Writes (levels + 1) table .item (be32 255 ++ be32 (index + 1)) table
  | singleton {levels : Nat} {table : Table} {typ : Nat} (htyp : typ ∈ singletons) :
      Writes (levels + 1) table .item (be32 typ) table
  /-- An environment: locked or not, its enclosure, frame, hash table and attributes. -/
  | environment {levels : Nat} {table table' : Table} {locked : Nat} {parts : List UInt8}
      (hparts : Writes levels (table ++ [none]) (.items 4) parts table') :
      Writes (levels + 1) table .item (be32 4 ++ be32 locked ++ parts) table'
  | named {levels : Nat} {table : Table} {typ place count : Nat} {names : List UInt8}
      (htyp : typ ∈ namedTypes) (hcount : count < 2 ^ 64) (hnames : Strings count names) :
      Writes (levels + 1) table .item (be32 typ ++ be32 place ++ lengthBytes count ++ names)
        (table ++ [none])
  /-- A pair: attributes, tag and CAR, then the CDR in its place. -/
  | pair {levels : Nat} {table₀ table₁ table₂ table₃ table₄ : Table} {typ word : Nat}
      {attr tag : Bool} {attributes tagged car cdr : List UInt8} (htyp : typ ∈ pairTypes)
      (hword : Header typ attr tag word)
      (hattributes : Writes levels table₀ (.optional attr) attributes table₁)
      (htag : Writes levels table₁ (.optional tag) tagged table₂)
      (hcar : Writes levels table₂ .item car table₃)
      (hcdr : Writes (levels + 1) table₃ .item cdr table₄) :
      Writes (levels + 1) table₀ .item (be32 word ++ attributes ++ tagged ++ car ++ cdr) table₄
  /-- A closure: attributes, environment and formals, then the body in its place. -/
  | closure {levels : Nat} {table₀ table₁ table₂ table₃ table₄ : Table} {word : Nat}
      {attr tag : Bool} {attributes environment formals body : List UInt8}
      (hword : Header 3 attr tag word)
      (hattributes : Writes levels table₀ (.optional attr) attributes table₁)
      (henvironment : Writes levels table₁ .item environment table₂)
      (hformals : Writes levels table₂ .item formals table₃)
      (hbody : Writes (levels + 1) table₃ .item body table₄) :
      Writes (levels + 1) table₀ .item
        (be32 word ++ attributes ++ environment ++ formals ++ body) table₄
  /-- Any other object: its payload, then its attributes. -/
  | object {levels : Nat} {table₀ table₁ table₂ : Table} {typ word : Nat} {attr : Bool}
      {content attributes : List UInt8} (hword : Header typ attr false word) (htyp : typ ≠ 238)
      (hcontent : Writes (levels + 1) table₀ (.payload typ) content table₁)
      (hattributes : Writes levels table₁ (.optional attr) attributes table₂) :
      Writes (levels + 1) table₀ .item (be32 word ++ content ++ attributes) table₂
  /-- An ALTREP: class, state and attributes, whether it has any or not. -/
  | altrep {levels : Nat} {table table' : Table} {word : Nat} {parts : List UInt8}
      (hword : Header 238 false false word)
      (hparts : Writes levels table (.items 3) parts table') :
      Writes (levels + 1) table .item (be32 word ++ parts) table'
  | absent {levels : Nat} {table : Table} : Writes levels table (.optional false) [] table
  | present {levels : Nat} {table table' : Table} {bytes : List UInt8}
      (h : Writes levels table .item bytes table') :
      Writes levels table (.optional true) bytes table'
  | noItems {levels : Nat} {table : Table} : Writes levels table (.items 0) [] table
  | moreItems {levels : Nat} {table table' table'' : Table} {count : Nat}
      {first rest : List UInt8} (hfirst : Writes levels table .item first table')
      (hrest : Writes levels table' (.items count) rest table'') :
      Writes levels table (.items (count + 1)) (first ++ rest) table''
  /-- An S4 object is its attributes. -/
  | s4 {levels : Nat} {table : Table} : Writes levels table (.payload 25) [] table
  | builtin {levels : Nat} {table : Table} {typ : Nat} {name : List UInt8}
      (htyp : typ = 7 ∨ typ = 8) (hname : name.length < 2 ^ 31) :
      Writes levels table (.payload typ) (be32 name.length ++ name) table
  | char {levels : Nat} {table : Table} {content : List UInt8} (h : content.length < 2 ^ 31) :
      Writes levels table (.payload 9) (be32 content.length ++ content) table
  | naChar {levels : Nat} {table : Table} :
      Writes levels table (.payload 9) (be32 (2 ^ 32 - 1)) table
  | vector {levels : Nat} {table : Table} {typ width count : Nat} {content : List UInt8}
      (htyp : (typ, width) ∈ fixedVectors) (hcount : count < 2 ^ 64)
      (hcontent : content.length = count * width) :
      Writes levels table (.payload typ) (lengthBytes count ++ content) table
  | strings {levels : Nat} {table : Table} {count : Nat} {texts : List UInt8}
      (hcount : count < 2 ^ 64) (htexts : Strings count texts) :
      Writes levels table (.payload 16) (lengthBytes count ++ texts) table
  | list {levels : Nat} {table table' : Table} {typ count : Nat} {elements : List UInt8}
      (htyp : typ = 19 ∨ typ = 20) (hcount : count < 2 ^ 64)
      (helements : Writes levels table (.items count) elements table') :
      Writes (levels + 1) table (.payload typ) (lengthBytes count ++ elements) table'
  /-- Bytecode: how many nodes are shared, then the code. -/
  | compiled {levels : Nat} {table table' : Table} {shared : Nat} {code : List UInt8}
      (hcode : Writes levels table .bytecode code table') :
      Writes (levels + 1) table (.payload 21) (be32 shared ++ code) table'
  | pointer {levels : Nat} {table table' : Table} {parts : List UInt8}
      (hparts : Writes levels (table ++ [none]) (.items 2) parts table') :
      Writes (levels + 1) table (.payload 22) parts table'
  | weakReference {levels : Nat} {table : Table} :
      Writes levels table (.payload 23) [] (table ++ [none])
  /-- The instructions, an integer vector, then the constants. -/
  | bytecode {levels : Nat} {table table' table'' : Table} {word count : Nat}
      {code pool : List UInt8} {attr tag : Bool} (hword : Header 13 attr tag word)
      (hcode : Writes levels table .item (be32 word ++ code) table') (hcount : count < 2 ^ 31)
      (hpool : Writes levels table' (.constants count) pool table'') :
      Writes (levels + 1) table .bytecode (be32 word ++ code ++ be32 count ++ pool) table''
  | noConstants {levels : Nat} {table : Table} : Writes levels table (.constants 0) [] table
  | moreConstants {levels : Nat} {table table' table'' : Table} {count : Nat}
      {first rest : List UInt8} (hfirst : Writes levels table .constant first table')
      (hrest : Writes levels table' (.constants count) rest table'') :
      Writes levels table (.constants (count + 1)) (first ++ rest) table''
  | nested {levels : Nat} {table table' : Table} {code : List UInt8}
      (hcode : Writes levels table .bytecode code table') :
      Writes levels table .constant (be32 21 ++ code) table'
  | expression {levels : Nat} {table table' : Table} {bytes : List UInt8}
      (h : Writes levels table .node bytes table') : Writes levels table .constant bytes table'
  /-- Any other constant, after its type. -/
  | value {levels : Nat} {table table' : Table} {typ : Nat} {bytes : List UInt8}
      (htyp : typ < 2 ^ 32) (hother : typ ∉ [2, 6, 21, 239, 240, 243, 244])
      (h : Writes levels table .item bytes table') :
      Writes levels table .constant (be32 typ ++ bytes) table'
  /-- A shared node met again. -/
  | sharedNode {levels : Nat} {table : Table} {index : Nat} :
      Writes (levels + 1) table .node (be32 243 ++ be32 index) table
  | newNode {levels : Nat} {table₀ table₁ table₂ table₃ table₄ : Table} {attr : Bool}
      {typ : Nat} {mark attributes tagged car cdr : List UInt8}
      (hmark : mark = [] ∨ ∃ index, mark = be32 244 ++ be32 index)
      (htyp : typ ∈ if attr = true then [239, 240] else [2, 6])
      (hattributes : Writes levels table₀ (.optional attr) attributes table₁)
      (htag : Writes levels table₁ .item tagged table₂)
      (hcar : Writes levels table₂ .language car table₃)
      (hcdr : Writes (levels + 1) table₃ .language cdr table₄) :
      Writes (levels + 1) table₀ .node
        (mark ++ be32 typ ++ attributes ++ tagged ++ car ++ cdr) table₄
  | node {levels : Nat} {table table' : Table} {bytes : List UInt8}
      (h : Writes levels table .node bytes table') : Writes levels table .language bytes table'
  | leaf {levels : Nat} {table table' : Table} {bytes : List UInt8}
      (h : Writes levels table .item bytes table') :
      Writes (levels + 1) table .language (be32 0 ++ bytes) table'

/-- The top-level pairlist of a workspace: a tagged cell for each object. -/
inductive Cells : Table → List SymbolName → List UInt8 → Prop
  | nil {table : Table} : Cells table [] (be32 254)
  | cons {table₀ table₁ table₂ table₃ : Table} {name : SymbolName} {names : List SymbolName}
      {word : Nat} {attr : Bool} {attributes tagged value rest : List UInt8}
      (hword : Header 2 attr true word)
      (hattributes : Writes TagWalk.maxWalkDepth table₀ (.optional attr) attributes table₁)
      (htag : Writes TagWalk.maxWalkDepth table₁ (.symbol name) tagged table₂)
      (hvalue : Writes TagWalk.maxWalkDepth table₂ .item value table₃)
      (hrest : Cells table₃ names rest) :
      Cells table₀ (name :: names) (be32 word ++ attributes ++ tagged ++ value ++ rest)

/-- The version header: version 3 names the native encoding. -/
inductive Versions : List UInt8 → Prop
  | two (writer reader : Nat) : Versions (be32 2 ++ be32 writer ++ be32 reader)
  | three (writer reader : Nat) (encoding : List UInt8) (h : encoding.length < 2 ^ 31) :
      Versions (be32 3 ++ be32 writer ++ be32 reader ++ be32 encoding.length ++ encoding)

/-- A serialized workspace of objects with these names. -/
inductive Workspace : List SymbolName → List UInt8 → Prop
  | mk {names : List SymbolName} {versions bytes : List UInt8} (hversions : Versions versions)
      (hcells : Cells [] names bytes) : Workspace names (TagWalk.xdrFormat ++ versions ++ bytes)

end Xdr

end Ry
