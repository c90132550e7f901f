/-!
# Names of colours

The names that stand for a colour, all in lower case.
-/

namespace Flowchart.Color

/-- The names of colours, in alphabetical order. -/
def names : List String :=
  ["aliceblue", "antiquewhite", "aqua", "aquamarine", "azure", "beige", "bisque", "black",
   "blanchedalmond", "blue", "blueviolet", "brown", "burlywood", "cadetblue", "chartreuse",
   "chocolate", "coral", "cornflowerblue", "cornsilk", "crimson", "cyan", "darkblue", "darkcyan",
   "darkgoldenrod", "darkgray", "darkgreen", "darkkhaki", "darkmagenta", "darkolivegreen",
   "darkorange", "darkorchid", "darkred", "darksalmon", "darkseagreen", "darkslateblue",
   "darkslategray", "darkturquoise", "darkviolet", "deeppink", "deepskyblue", "dimgray",
   "dodgerblue", "firebrick", "floralwhite", "forestgreen", "fuchsia", "gainsboro", "ghostwhite",
   "gold", "goldenrod", "gray", "green", "greenyellow", "honeydew", "hotpink", "indianred",
   "indigo", "ivory", "khaki", "lavender", "lavenderblush", "lawngreen", "lemonchiffon",
   "lightblue", "lightcoral", "lightcyan", "lightgoldenrodyellow", "lightgray", "lightgreen",
   "lightpink", "lightsalmon", "lightseagreen", "lightskyblue", "lightslategray", "lightsteelblue",
   "lightyellow", "lime", "limegreen", "linen", "magenta", "maroon", "mediumaquamarine",
   "mediumblue", "mediumorchid", "mediumpurple", "mediumseagreen", "mediumslateblue",
   "mediumspringgreen", "mediumturquoise", "mediumvioletred", "midnightblue", "mintcream",
   "mistyrose", "moccasin", "navajowhite", "navy", "oldlace", "olive", "olivedrab", "orange",
   "orangered", "orchid", "palegoldenrod", "palegreen", "paleturquoise", "palevioletred",
   "papayawhip", "peachpuff", "peru", "pink", "plum", "powderblue", "purple", "rebeccapurple",
   "red", "rosybrown", "royalblue", "saddlebrown", "salmon", "sandybrown", "seagreen", "seashell",
   "sienna", "silver", "skyblue", "slateblue", "slategray", "snow", "springgreen", "steelblue",
   "tan", "teal", "thistle", "tomato", "transparent", "turquoise", "violet", "wheat", "white",
   "whitesmoke", "yellow", "yellowgreen"]

/-- A name stands for a colour. -/
def isName (name : String) : Bool := names.contains name

end Flowchart.Color
