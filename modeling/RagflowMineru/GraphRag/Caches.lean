import RagflowMineru.Library.Driven
import RagflowMineru.Library.Expiring

/-!
# The caches of GraphRAG

Answers of the language model, embeddings and tag lists are cached in one Redis
key space.  A key is the hash of the printed arguments run together, with
nothing between two arguments and nothing that says which cache it belongs to.
So a getter finds what was stored last for *any* request that prints the same.
-/

namespace RagflowMineru.GraphRag

open RagflowMineru.Library

/-- What the caches take from Python and its packages: printing an object, the
hash, and JSON, whose functions may raise. -/
structure Python (Obj κ ε : Type) where
  str : Obj → String
  /-- `xxhash.xxh64` of the bytes fed to it, as `hexdigest`. -/
  hexdigest : ByteArray → κ
  /-- `arr.tolist()` of an array, and any other object itself. -/
  tolist : Obj → Obj
  dumps : Obj → Except ε String
  loads : String → Except ε Obj
  /-- `np.array`. -/
  array : Obj → Except ε Obj

variable {Obj κ ε : Type} [DecidableEq κ]

/-- The texts under their keys. -/
abbrev Redis (κ : Type) := Expiring κ String

namespace Python

variable (py : Python Obj κ ε)

/-! ## Keys -/

def llmKey (llmnm txt history genconf : Obj) : κ :=
  py.hexdigest (py.str llmnm ++ py.str txt ++ py.str history ++
    py.str genconf).toUTF8

def embedKey (llmnm txt : Obj) : κ :=
  py.hexdigest ((py.str llmnm).toUTF8 ++ (py.str txt).toUTF8)

def tagsKey (kbIds : Obj) : κ :=
  py.hexdigest (py.str kbIds).toUTF8

/-- `REDIS_CONN.get`, with the empty text taken for no text. -/
def find (redis : Redis κ) (k : κ) : Option String :=
  (redis.get k).filter fun bin => bin ≠ ""

/-! ## Getters and setters -/

def getLlmCache (redis : Redis κ) (llmnm txt history genconf : Obj) :
    Option String :=
  find redis (py.llmKey llmnm txt history genconf)

def setLlmCache (redis : Redis κ) (llmnm txt : Obj) (v : String)
    (history genconf : Obj) : Redis κ :=
  redis.put (py.llmKey llmnm txt history genconf) v true

def getEmbedCache (redis : Redis κ) (llmnm txt : Obj) :
    Except ε (Option Obj) :=
  match find redis (py.embedKey llmnm txt) with
  | none => .ok none
  | some bin => do
      let arr ← py.loads bin
      return some (← py.array arr)

def setEmbedCache (redis : Redis κ) (llmnm txt arr : Obj) :
    Except ε (Redis κ) :=
  (py.dumps (py.tolist arr)).map fun text =>
    redis.put (py.embedKey llmnm txt) text true

def getTagsFromCache (redis : Redis κ) (kbIds : Obj) : Option String :=
  find redis (py.tagsKey kbIds)

def setTagsToCache (redis : Redis κ) (kbIds tags : Obj) : Except ε (Redis κ) :=
  (py.dumps tags).map fun text => redis.put (py.tagsKey kbIds) text true

end Python

end RagflowMineru.GraphRag
