import ServerSplit.Text.Blank

/-! Paths as parts of names. A slug spells symbols and accented letters in plain ones, leaves out
what cannot stand in a name, and joins its words by single underscores; the identifier of a function is
the slug of its file, two underscores and its name. -/
namespace ServerSplit

/-- The characters that have a spelling, by their spelling. -/
def spellings : List (String × String) :=
  [("$", "dollar"), ("%", "percent"), ("&", "and"), ("<", "less"), (">", "greater"), ("|", "or"),
   ("€", "euro"), ("£", "pound"), ("¥", "yen"), ("¢", "cent"), ("₹", "indian rupee"),
   ("₿", "bitcoin"), ("©", "c"), ("®", "r"), ("™", "tm"), ("∞", "infinity"), ("♥", "love"),
   ("ÀÁÂÃÄÅĀĂĄ", "A"), ("àáâãäåāăą", "a"), ("Æ", "AE"), ("æ", "ae"), ("ÇĆČĈĊ", "C"),
   ("çćčĉċ", "c"), ("ÐĎĐ", "D"), ("ðďđ", "d"), ("ÈÉÊËĒĖĘĚ", "E"), ("èéêëēėęě", "e"),
   ("ĞĢĜĠ", "G"), ("ğģĝġ", "g"), ("ÌÍÎÏĪĮİ", "I"), ("ìíîïīįı", "i"), ("Ķ", "K"), ("ķ", "k"),
   ("ŁĽĻĹ", "L"), ("łľļĺ", "l"), ("ÑŃŇŅ", "N"), ("ñńňņ", "n"), ("ÒÓÔÕÖØŌŐ", "O"),
   ("òóôõöøōő", "o"), ("Œ", "OE"), ("œ", "oe"), ("ŘŔ", "R"), ("řŕ", "r"), ("ŚŠŞȘ", "S"),
   ("śšşș", "s"), ("ß", "ss"), ("ŤŢȚ", "T"), ("ťţț", "t"), ("Þ", "TH"), ("þ", "th"),
   ("ÙÚÛÜŪŮŰŲ", "U"), ("ùúûüūůűų", "u"), ("ÝŸ", "Y"), ("ýÿ", "y"), ("ŹŽŻ", "Z"), ("źžż", "z")]

/-- How a character is spelled in a slug, if not by itself. -/
def spelling? (c : Char) : Option Text :=
  (spellings.find? fun p => p.1.toList.contains c).map (·.2.toList)

/-- The characters that a slug leaves out. -/
def reservedChars : List Char := "*+~.()/\\'\"!:@".toList

def separator : Char := '_'

/-- A character of a path as it is spelled before the words are joined. -/
def spell (c : Char) : Text :=
  if c = separator then [' ']
  else if reservedChars.contains c then []
  else (spelling? c).getD [c]

/-- The form of a path that can be part of a name. -/
def slug (path : Text) : Text := Text.joinWith [separator] (Text.words (path.flatMap spell))

/-- The key of a function: the slug of its file, two separators, and its name. -/
def functionId (path name : Text) : Text := slug path ++ [separator, separator] ++ name

end ServerSplit
