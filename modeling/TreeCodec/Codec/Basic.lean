import TreeCodec.Decl
import TreeCodec.Hook

/-!
# Codecs

What a conversion goes by: the declared types, the custom conversions, and how
deep it may go. A limit of `n` admits `n` conversions within one another, each
layer of a type counted.
-/

namespace TreeCodec

structure Codec where
  catalogue : Catalogue
  registry : Registry
  maxDepth : Nat

namespace Codec

/-- The depth limit in use where none is asked for. -/
def defaultDepth : Nat := 256

/-- The codec without custom conversions and with the default limit. -/
def standard (catalogue : Catalogue) : Codec := ⟨catalogue, .initial, defaultDepth⟩

end Codec

end TreeCodec
